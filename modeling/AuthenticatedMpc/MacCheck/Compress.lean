import AuthenticatedMpc.Ledger

/-!
# Compressing records

For records `(x₀, m₀), …, (xₙ₋₁, mₙ₋₁)`, a key share `a` and a combiner `r`, compressing gives the
value of the polynomial with coefficients `mₖ - a * xₖ`, the first record on the highest power, at
`r`, together with `rⁿ`, so that consecutive parts can be folded into one.
-/

namespace AuthenticatedMpc

/-- A check value and the power of the combiner that moves an earlier one past it. -/
structure Compressed where
  value : Element
  power : Element
deriving DecidableEq, Repr

namespace Compressed

variable (p : Modulus)

def start : Compressed := ⟨.zero, .one⟩

/-- How far the MAC share of a record is from the key share times its value. -/
def defect (keyShare : Element) (record : Record) : Element :=
  p.sub record.mac (p.mul keyShare record.value)

def absorb (combiner keyShare : Element) (acc : Compressed) (record : Record) : Compressed :=
  ⟨p.add (p.mul acc.value combiner) (defect p keyShare record), p.mul acc.power combiner⟩

end Compressed

/-- Horner's rule over the defects of the records. -/
def compress (p : Modulus) (combiner keyShare : Element) (records : List Record) : Compressed :=
  records.foldl (Compressed.absorb p combiner keyShare) .start

end AuthenticatedMpc
