/-!
# JSON documents

The tree of a document, and its compact text. Only what a reader of configurations and packets tells
apart is kept: numerals that are not plain naturals stand for themselves, and a text whose escapes
spell no Unicode text has no content.
-/

namespace AuthenticatedMpc

-- Powers of numbers are those of the core library.
attribute [local instance (high)] instPowNat

inductive Json where
  | null
  | bool (value : Bool)
  /-- A numeral without sign, fraction and exponent. -/
  | natural (value : Nat)
  /-- Any other numeral, as it is spelled. -/
  | numeral (spelling : String)
  /-- A text; `none` where lone surrogates are escaped. -/
  | text (content : Option String)
  | array (items : List Json)
  | object (members : List (Option String × Json))

namespace Json

def hexDigit (d : Nat) : Char := (Nat.digitChar d)

def escape (c : Char) : List Char :=
  if c = '"' then ['\\', '"']
  else if c = '\\' then ['\\', '\\']
  else if c = '\n' then ['\\', 'n']
  else if c = '\r' then ['\\', 'r']
  else if c = '\t' then ['\\', 't']
  else if c = Char.ofNat 8 then ['\\', 'b']
  else if c = Char.ofNat 12 then ['\\', 'f']
  else if c.toNat < 32 then
    ['\\', 'u', '0', '0', hexDigit (c.toNat / 16), hexDigit (c.toNat % 16)]
  else [c]

/-- A text in quotes; one without content is written as a lone surrogate. -/
def quote (content : Option String) : List Char :=
  let inner :=
    match content with
    | some characters => characters.toList.flatMap escape
    | none => ['\\', 'u', 'd', '8', '0', '0']
  '"' :: (inner ++ ['"'])

mutual

def chars : Json → List Char
  | null => "null".toList
  | bool true => "true".toList
  | bool false => "false".toList
  | natural value => (toString value).toList
  | numeral spelling => spelling.toList
  | text content => quote content
  | array [] => ['[', ']']
  | array (item :: items) => '[' :: (chars item ++ itemChars items)
  | object [] => ['\x7b', '\x7d']
  | object ((key, item) :: members) =>
    '\x7b' :: (quote key ++ ':' :: (chars item ++ memberChars members))

def itemChars : List Json → List Char
  | [] => [']']
  | item :: items => ',' :: (chars item ++ itemChars items)

def memberChars : List (Option String × Json) → List Char
  | [] => ['\x7d']
  | (key, item) :: members => ',' :: (quote key ++ ':' :: (chars item ++ memberChars members))

end

def render (json : Json) : String := String.ofList json.chars

/-! ## Reading a tree -/

def asArray? : Json → Option (List Json)
  | array items => some items
  | _ => none

def naturalBelow? (bound : Nat) : Json → Option Nat
  | natural value => if value < bound then some value else none
  | _ => none

def word? (json : Json) : Option UInt64 := (json.naturalBelow? (2 ^ (64 : Nat))).map Nat.toUInt64

def hasTextKeys (members : List (Option String × Json)) : Bool := members.all (·.1.isSome)

def valuesOf (key : String) (members : List (Option String × Json)) : List Json :=
  (members.filter (·.1 == some key)).map (·.2)

def required? (key : String) (members : List (Option String × Json)) : Option Json :=
  match valuesOf key members with
  | [value] => some value
  | _ => none

end Json
end AuthenticatedMpc
