import AuthenticatedMpc.Json.Token

/-!
# Reading a JSON document

A document is one value with nothing after it. Commas stand between the items of an array and the
members of an object, never after the last.
-/

namespace AuthenticatedMpc
namespace Json

mutual

/-- A value at the front of the tokens, with a bound on their number. -/
def value? : Nat → List Token → Option (Json × List Token)
  | 0, _ => none
  | _ + 1, [] => none
  | fuel + 1, token :: rest =>
    match token with
    | .null => some (null, rest)
    | .bool value => some (bool value, rest)
    | .natural value => some (natural value, rest)
    | .numeral spelling => some (numeral spelling, rest)
    | .text content => some (text content, rest)
    | .openBracket =>
      match rest with
      | .closeBracket :: rest => some (array [], rest)
      | rest => (items? fuel rest).map fun (items, rest) => (array items, rest)
    | .openBrace =>
      match rest with
      | .closeBrace :: rest => some (object [], rest)
      | rest => (members? fuel rest).map fun (members, rest) => (object members, rest)
    | _ => none

def items? : Nat → List Token → Option (List Json × List Token)
  | 0, _ => none
  | fuel + 1, tokens =>
    match value? fuel tokens with
    | some (item, .comma :: rest) =>
      (items? fuel rest).map fun (items, rest) => (item :: items, rest)
    | some (item, .closeBracket :: rest) => some ([item], rest)
    | _ => none

def members? : Nat → List Token → Option (List (Option String × Json) × List Token)
  | 0, _ => none
  | fuel + 1, tokens =>
    match tokens with
    | .text key :: .colon :: rest =>
      match value? fuel rest with
      | some (item, .comma :: rest) =>
        (members? fuel rest).map fun (members, rest) => ((key, item) :: members, rest)
      | some (item, .closeBrace :: rest) => some ([(key, item)], rest)
      | _ => none
    | _ => none

end

/-- The document that a list of tokens spells; a level of nesting takes two tokens at least. -/
def ofTokens? (tokens : List Token) : Option Json :=
  match value? (2 * tokens.length) tokens with
  | some (json, []) => some json
  | _ => none

def read? (text : String) : Option Json := (Token.ofText? text).bind ofTokens?

end Json
end AuthenticatedMpc
