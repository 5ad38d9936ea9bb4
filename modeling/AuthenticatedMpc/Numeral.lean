import AuthenticatedMpc.Error

/-!
# Decimal numerals

A numeral is an optional plus sign and ASCII digits, with underscores anywhere but at the start of
the digits. A second plus sign is not part of the sign.
-/

namespace AuthenticatedMpc
namespace Numeral

/-- The text after a leading plus sign; the sign is kept where another one follows it. -/
def dropSign : List Char → List Char
  | '+' :: rest => if rest.head? = some '+' then '+' :: rest else rest
  | text => text

def digit? (c : Char) : Option Nat :=
  if '0' ≤ c ∧ c ≤ '9' then some (c.toNat - '0'.toNat) else none

def readDigits (acc : Nat) : List Char → Except NumeralError Nat
  | [] => .ok acc
  | c :: rest =>
    if c = '_' then readDigits acc rest
    else
      match digit? c with
      | some d => readDigits (10 * acc + d) rest
      | none => .error .invalidDigit

def readUnsigned : List Char → Except NumeralError Nat
  | [] => .error .empty
  | c :: rest => if c = '_' then .error .invalidDigit else readDigits 0 (c :: rest)

def read (text : String) : Except NumeralError Nat :=
  readUnsigned (dropSign text.toList)

end Numeral
end AuthenticatedMpc
