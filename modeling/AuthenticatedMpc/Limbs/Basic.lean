/-!
# Unsigned integers of 64-bit limbs

`Limbs n` holds `n` words, the least significant first, and stands for their positional value in
base `2 ^ 64`. Arithmetic wraps modulo `2 ^ (64 * n)`: sums and differences run one carry through
the limbs, products are built row by row with a running carry. Reduction modulo a prime belongs to
`Modulus`.
-/

namespace AuthenticatedMpc

-- Powers of numbers are those of the core library.
attribute [local instance (high)] instPowNat

/-! ## Lists of words -/

namespace Words

/-- The positional value, the least significant word first. -/
def value : List UInt64 → Nat
  | [] => 0
  | word :: words => word.toNat + 2 ^ (64 : Nat) * value words

def ofNat : Nat → Nat → List UInt64
  | 0, _ => []
  | n + 1, v => v.toUInt64 :: ofNat n (v / 2 ^ (64 : Nat))

/-- Adds word by word; a step carries when either of its two additions wraps. -/
def addCarry : List UInt64 → List UInt64 → Bool → List UInt64 × Bool
  | a :: as, b :: bs, carry =>
    let sum := a + b
    let out := sum + carry.toUInt64
    let rest := addCarry as bs (decide (sum < a) || decide (out < sum))
    (out :: rest.1, rest.2)
  | _, _, carry => ([], carry)

/-- Subtracts word by word; a step borrows when either of its two subtractions wraps. -/
def subBorrow : List UInt64 → List UInt64 → Bool → List UInt64 × Bool
  | a :: as, b :: bs, borrow =>
    let diff := a - b
    let out := diff - borrow.toUInt64
    let rest := subBorrow as bs (decide (a < b) || decide (diff < borrow.toUInt64))
    (out :: rest.1, rest.2)
  | _, _, borrow => ([], borrow)

/-- The 128-bit accumulator of one step of a product row. -/
def accumulate (factor word slot carry : UInt64) : Nat :=
  factor.toNat * word.toNat + slot.toNat + carry.toNat

/-- Adds `factor * words` into a buffer. The final carry is stored in the slot after the last
product word; where the buffer ends first, what would lie beyond it is dropped. -/
def addRow (factor : UInt64) : List UInt64 → List UInt64 → UInt64 → List UInt64
  | _, [], _ => []
  | [], _ :: buffer, carry => carry :: buffer
  | word :: words, slot :: buffer, carry =>
    let acc := accumulate factor word slot carry
    acc.toUInt64 :: addRow factor words buffer (acc / 2 ^ (64 : Nat)).toUInt64

/-- Adds the product of two word lists into a buffer, one row per word of the left factor; each row
starts one slot further up. -/
def addProduct : List UInt64 → List UInt64 → List UInt64 → List UInt64
  | [], _, buffer => buffer
  | factor :: left, right, buffer =>
    match addRow factor right buffer 0 with
    | [] => []
    | low :: window => low :: addProduct left right window

def wordBits (word : UInt64) : Nat :=
  if word = 0 then 0 else word.toNat.log2 + 1

/-- The number of significant bits, found from the most significant nonzero word. -/
def bitLength : List UInt64 → Nat
  | [] => 0
  | word :: words =>
    match bitLength words with
    | 0 => wordBits word
    | bits + 1 => 64 + (bits + 1)

def compareWords : List UInt64 → List UInt64 → Ordering
  | a :: as, b :: bs => (compareWords as bs).then (compare a b)
  | [], [] => .eq
  | [], _ :: _ => .lt
  | _ :: _, [] => .gt

@[simp] theorem length_ofNat (n v : Nat) : (ofNat n v).length = n := by
  induction n generalizing v with
  | zero => rfl
  | succ n ih => simp [ofNat, ih]

theorem length_addCarry {as bs : List UInt64} (h : as.length = bs.length) (carry : Bool) :
    (addCarry as bs carry).1.length = as.length := by
  induction as generalizing bs carry with
  | nil => simp [addCarry]
  | cons a as ih =>
    cases bs with
    | nil => simp at h
    | cons b bs => simpa [addCarry] using ih (by simpa using h) _

theorem length_subBorrow {as bs : List UInt64} (h : as.length = bs.length) (borrow : Bool) :
    (subBorrow as bs borrow).1.length = as.length := by
  induction as generalizing bs borrow with
  | nil => simp [subBorrow]
  | cons a as ih =>
    cases bs with
    | nil => simp at h
    | cons b bs => simpa [subBorrow] using ih (by simpa using h) _

@[simp] theorem length_addRow (factor : UInt64) (words buffer : List UInt64) (carry : UInt64) :
    (addRow factor words buffer carry).length = buffer.length := by
  induction words generalizing buffer carry with
  | nil => cases buffer <;> simp [addRow]
  | cons word words ih => cases buffer <;> simp [addRow, ih]

@[simp] theorem length_addProduct (left right buffer : List UInt64) :
    (addProduct left right buffer).length = buffer.length := by
  induction left generalizing buffer with
  | nil => rfl
  | cons factor left ih =>
    have hrow := length_addRow factor right buffer 0
    unfold addProduct
    split
    · next h => simpa [h] using hrow
    · next low window h =>
      rw [h] at hrow
      simpa [ih] using hrow

end Words

/-! ## Integers of a fixed number of limbs -/

/-- An unsigned integer of `n` limbs, the least significant first. -/
structure Limbs (n : Nat) where
  words : List UInt64
  length_words : words.length = n
deriving DecidableEq, Repr

namespace Limbs

variable {n : Nat}

def toNat (a : Limbs n) : Nat := Words.value a.words

def bits (n : Nat) : Nat := 64 * n

def byteLength (n : Nat) : Nat := 8 * n

def ofNat (n v : Nat) : Limbs n := ⟨Words.ofNat n v, Words.length_ofNat n v⟩

def zero (n : Nat) : Limbs n := ⟨List.replicate n 0, by simp⟩

def largest (n : Nat) : Limbs n := ⟨List.replicate n (0 - 1), by simp⟩

/-- The given words in the lowest limbs, as many as fit. -/
def ofLowWords (n : Nat) (words : List UInt64) : Limbs n :=
  ⟨(words ++ List.replicate n 0).take n, by simp⟩

def ofWord (n : Nat) (word : UInt64) : Limbs n := ofLowWords n [word]

/-- A double word, its low half first; with a single limb the high half is lost. -/
def ofDoubleWord (n : Nat) (low high : UInt64) : Limbs n := ofLowWords n [low, high]

def one (n : Nat) : Limbs n := ofWord n 1

instance : Inhabited (Limbs n) := ⟨zero n⟩

def ofWords? (n : Nat) (words : List UInt64) : Option (Limbs n) :=
  if h : words.length = n then some ⟨words, h⟩ else none

def isZero (a : Limbs n) : Bool := a.words.all (· == 0)

def bitLength (a : Limbs n) : Nat := Words.bitLength a.words

/-- Whether a binary digit is one; digits beyond the width are zero. -/
def bit (a : Limbs n) (i : Nat) : Bool :=
  decide (i < bits n) && ((a.words[i / 64]?.getD 0 >>> (i % 64).toUInt64) &&& 1 == 1)

/-- The wrapped sum, and whether a carry was dropped. -/
def overflowingAdd (a b : Limbs n) : Limbs n × Bool :=
  let sum := Words.addCarry a.words b.words false
  (⟨sum.1, by simp [sum, Words.length_addCarry, a.length_words, b.length_words]⟩, sum.2)

/-- The wrapped difference, and whether a borrow was taken. -/
def overflowingSub (a b : Limbs n) : Limbs n × Bool :=
  let diff := Words.subBorrow a.words b.words false
  (⟨diff.1, by simp [diff, Words.length_subBorrow, a.length_words, b.length_words]⟩, diff.2)

instance : Add (Limbs n) := ⟨fun a b => (overflowingAdd a b).1⟩

instance : Sub (Limbs n) := ⟨fun a b => (overflowingSub a b).1⟩

instance : Neg (Limbs n) := ⟨fun a => zero n - a⟩

/-- The low half of the product. Partial products beyond the width are never formed. -/
def wrappingMul (a b : Limbs n) : Limbs n :=
  ⟨Words.addProduct a.words b.words (List.replicate n 0), by simp⟩

instance : Mul (Limbs n) := ⟨wrappingMul⟩

def productWords (a b : Limbs n) : List UInt64 :=
  Words.addProduct a.words b.words (List.replicate (n + n) 0)

def wideningMul (a b : Limbs n) : Limbs n × Limbs n :=
  (⟨(productWords a b).take n, by simp [productWords]⟩,
    ⟨(productWords a b).drop n, by simp [productWords]⟩)

instance : Ord (Limbs n) := ⟨fun a b => Words.compareWords a.words b.words⟩

instance : LT (Limbs n) := ⟨fun a b => compare a b = .lt⟩

instance : LE (Limbs n) := ⟨fun a b => compare a b ≠ .gt⟩

instance (a b : Limbs n) : Decidable (a < b) := inferInstanceAs (Decidable (compare a b = .lt))

instance (a b : Limbs n) : Decidable (a ≤ b) := inferInstanceAs (Decidable (compare a b ≠ .gt))

end Limbs
end AuthenticatedMpc
