import AuthenticatedMpc.Json.Basic

/-!
# Tokens of a JSON text

Blanks between tokens are skipped. Texts are read with their escapes: paired surrogates make one
character, and a lone one leaves the text without content. Numerals have no leading zeros, and a
fraction or an exponent has at least one digit.
-/

namespace AuthenticatedMpc
namespace Json

inductive Token where
  | openBrace
  | closeBrace
  | openBracket
  | closeBracket
  | colon
  | comma
  | null
  | bool (value : Bool)
  | natural (value : Nat)
  | numeral (spelling : String)
  | text (content : Option String)
deriving DecidableEq, Repr

namespace Token

def isBlank (c : Char) : Bool := c == ' ' || c == '\n' || c == '\r' || c == '\t'

/-! ## Texts -/

def hexValue? (c : Char) : Option Nat :=
  if '0' ≤ c ∧ c ≤ '9' then some (c.toNat - '0'.toNat)
  else if 'a' ≤ c ∧ c ≤ 'f' then some (c.toNat - 'a'.toNat + 10)
  else if 'A' ≤ c ∧ c ≤ 'F' then some (c.toNat - 'A'.toNat + 10)
  else none

def codeUnit? (a b c d : Char) : Option Nat := do
  let a ← hexValue? a
  let b ← hexValue? b
  let c ← hexValue? c
  let d ← hexValue? d
  pure (4096 * a + 256 * b + 16 * c + d)

def simpleEscape? (c : Char) : Option Char :=
  if c = '"' ∨ c = '\\' ∨ c = '/' then some c
  else if c = 'b' then some (Char.ofNat 8)
  else if c = 'f' then some (Char.ofNat 12)
  else if c = 'n' then some '\n'
  else if c = 'r' then some '\r'
  else if c = 't' then some '\t'
  else none

/-- The code points and escaped code units of a text up to its closing quote, and what follows. -/
def units? : List Char → Option (List Nat × List Char)
  | [] => none
  | '\\' :: 'u' :: a :: b :: c :: d :: rest => do
    let unit ← codeUnit? a b c d
    let (units, rest) ← units? rest
    pure (unit :: units, rest)
  | '\\' :: c :: rest => do
    let c ← simpleEscape? c
    let (units, rest) ← units? rest
    pure (c.toNat :: units, rest)
  | c :: rest =>
    if c = '"' then some ([], rest)
    else if c = '\\' ∨ c.toNat < 32 then none
    else do
      let (units, rest) ← units? rest
      pure (c.toNat :: units, rest)

def isLead (unit : Nat) : Bool := 0xd800 ≤ unit && unit < 0xdc00

def isTrail (unit : Nat) : Bool := 0xdc00 ≤ unit && unit < 0xe000

/-- Joins surrogate pairs; a lone surrogate has no character. -/
def joinUnits? : List Nat → Option (List Char)
  | [] => some []
  | [unit] => if isLead unit || isTrail unit then none else some [Char.ofNat unit]
  | unit :: next :: rest =>
    if isLead unit then
      if isTrail next then
        let point := 0x10000 + 0x400 * (unit - 0xd800) + (next - 0xdc00)
        (joinUnits? rest).map (Char.ofNat point :: ·)
      else none
    else if isTrail unit then none
    else (joinUnits? (next :: rest)).map (Char.ofNat unit :: ·)

def text? (chars : List Char) : Option (Token × List Char) :=
  (units? chars).map fun (units, rest) => (text ((joinUnits? units).map String.ofList), rest)

/-! ## Numerals -/

def spanDigits (chars : List Char) : List Char × List Char := chars.span Char.isDigit

def digits? (chars : List Char) : Option (List Char × List Char) :=
  match spanDigits chars with
  | ([], _) => none
  | (digits, rest) => some (digits, rest)

/-- The digits before the point: a single zero, or no leading zero. -/
def wholePart? (chars : List Char) : Option (List Char × List Char) :=
  match spanDigits chars with
  | ([], _) => none
  | ('0' :: _ :: _, _) => none
  | (digits, rest) => some (digits, rest)

def fraction? : List Char → Option (List Char × List Char)
  | '.' :: rest => (digits? rest).map fun (digits, rest) => ('.' :: digits, rest)
  | rest => some ([], rest)

def exponent? : List Char → Option (List Char × List Char)
  | c :: rest =>
    if c = 'e' ∨ c = 'E' then
      match rest with
      | s :: rest' =>
        if s = '+' ∨ s = '-' then
          (digits? rest').map fun (digits, rest) => (c :: s :: digits, rest)
        else (digits? rest).map fun (digits, rest) => (c :: digits, rest)
      | [] => none
    else some ([], c :: rest)
  | [] => some ([], [])

def digitsValue (digits : List Char) : Nat :=
  digits.foldl (fun acc c => 10 * acc + (c.toNat - '0'.toNat)) 0

def unsigned? (sign : List Char) (chars : List Char) : Option (Token × List Char) := do
  let (whole, rest) ← wholePart? chars
  let (fraction, rest) ← fraction? rest
  let (exponent, rest) ← exponent? rest
  if sign.isEmpty && fraction.isEmpty && exponent.isEmpty then
    pure (natural (digitsValue whole), rest)
  else
    pure (numeral (String.ofList (sign ++ whole ++ fraction ++ exponent)), rest)

def number? : List Char → Option (Token × List Char)
  | '-' :: rest => unsigned? ['-'] rest
  | rest => unsigned? [] rest

/-! ## The token at the front -/

/-- The first token of a text that begins with no blank, and what follows. -/
def next? : List Char → Option (Token × List Char)
  | [] => none
  | '\x7b' :: rest => some (openBrace, rest)
  | '\x7d' :: rest => some (closeBrace, rest)
  | '[' :: rest => some (openBracket, rest)
  | ']' :: rest => some (closeBracket, rest)
  | ':' :: rest => some (colon, rest)
  | ',' :: rest => some (comma, rest)
  | '"' :: rest => text? rest
  | 'n' :: 'u' :: 'l' :: 'l' :: rest => some (null, rest)
  | 't' :: 'r' :: 'u' :: 'e' :: rest => some (bool true, rest)
  | 'f' :: 'a' :: 'l' :: 's' :: 'e' :: rest => some (bool false, rest)
  | chars => number? chars

/-- The tokens of a text, with at most `fuel` tokens and blanks. -/
def scan : Nat → List Char → Option (List Token)
  | _, [] => some []
  | 0, _ :: _ => none
  | fuel + 1, c :: rest =>
    if isBlank c then scan fuel rest
    else do
      let (token, rest) ← next? (c :: rest)
      let tokens ← scan fuel rest
      pure (token :: tokens)

/-- All tokens of a text. Each token and each blank takes a character. -/
def ofText? (text : String) : Option (List Token) := scan text.toList.length text.toList

end Token
end Json
end AuthenticatedMpc
