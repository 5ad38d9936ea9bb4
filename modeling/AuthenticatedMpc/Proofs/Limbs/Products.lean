import AuthenticatedMpc.Proofs.Limbs.Arithmetic

/-!
# Nothing is lost in a product

A product written with all its checks, which stops where an accumulator leaves 128 bits or where the
last carry of a row meets a slot in use, never stops. A shorter buffer only cuts the words of the product
off, so the truncated product is the low half of the full one.
-/

namespace AuthenticatedMpc
namespace Words

/-- A row that watches its stores: `none` if an accumulator does not fit 128 bits, and if the last
carry would overwrite a slot that is not zero. -/
def addRow? (factor : UInt64) : List UInt64 → List UInt64 → UInt64 → Option (List UInt64)
  | _, [], _ => some []
  | [], slot :: buffer, carry => if slot = 0 then some (carry :: buffer) else none
  | word :: words, slot :: buffer, carry =>
    let acc := accumulate factor word slot carry
    if acc < 2 ^ 128 then
      (addRow? factor words buffer (acc / 2 ^ 64).toUInt64).map (acc.toUInt64 :: ·)
    else none

/-- A product all of whose rows watch their stores. -/
def addProduct? : List UInt64 → List UInt64 → List UInt64 → Option (List UInt64)
  | [], _, buffer => some buffer
  | factor :: left, right, buffer =>
    match addRow? factor right buffer 0 with
    | none => none
    | some [] => some []
    | some (low :: window) => (addProduct? left right window).map (low :: ·)

theorem addRow?_eq (factor : UInt64) {words buffer : List UInt64} (carry : UInt64)
    (hzero : ∀ slot ∈ buffer[words.length]?, slot = 0) :
    addRow? factor words buffer carry = some (addRow factor words buffer carry) := by
  induction words generalizing buffer carry with
  | nil =>
    cases buffer with
    | nil => rfl
    | cons slot buffer => exact if_pos (hzero slot rfl)
  | cons word words ih =>
    cases buffer with
    | nil => rfl
    | cons slot buffer =>
      have hrest := ih (accumulate factor word slot carry / 2 ^ 64).toUInt64 hzero
      rw [addRow?, if_pos (accumulate_lt factor word slot carry), hrest, addRow, Option.map_some]

/-- A carry that would overwrite a slot in use is seen. -/
example : addRow? 3 [7] [0, 5] 0 = none := by decide

theorem drop_addRow (factor : UInt64) (words buffer : List UInt64) (carry : UInt64) :
    (addRow factor words buffer carry).drop (words.length + 1) =
      buffer.drop (words.length + 1) := by
  induction words generalizing buffer carry with
  | nil => cases buffer <;> rfl
  | cons word words ih =>
    cases buffer with
    | nil => rfl
    | cons slot buffer => exact ih buffer _

/-- If the slots behind the first row are zero, then each row finds a zero where it stores its last
carry: the rows before it end one slot further down at least. -/
theorem addProduct?_eq (left : List UInt64) {right buffer : List UInt64}
    (hzero : ∀ slot ∈ buffer.drop right.length, slot = 0) :
    addProduct? left right buffer = some (addProduct left right buffer) := by
  induction left generalizing buffer with
  | nil => rfl
  | cons factor left ih =>
    have hend : ∀ slot ∈ buffer[right.length]?, slot = 0 := fun slot hslot => by
      have hfirst : (buffer.drop right.length)[0]? = some slot := by
        rw [List.getElem?_drop]
        exact hslot
      exact hzero slot (List.mem_of_getElem? hfirst)
    rw [addProduct?, addRow?_eq factor 0 hend, addProduct]
    cases hrow : addRow factor right buffer 0 with
    | nil => rfl
    | cons low window =>
      -- The next row ends one slot further up, among the zeros that this one has left alone.
      have hbehind : window.drop right.length = buffer.drop (right.length + 1) := by
        rw [← drop_addRow factor right buffer 0, hrow, List.drop_succ_cons]
      have hwindow : ∀ slot ∈ window.drop right.length, slot = 0 := by
        rw [hbehind, ← List.drop_drop]
        exact fun slot hslot => hzero slot (List.mem_of_mem_drop hslot)
      simp only [ih hwindow, Option.map_some]

/-! ## Shorter buffers -/

theorem addRow_take (factor : UInt64) (words buffer : List UInt64) (carry : UInt64) (k : ℕ) :
    addRow factor words (buffer.take k) carry = (addRow factor words buffer carry).take k := by
  induction words generalizing buffer carry k with
  | nil => cases buffer <;> cases k <;> rfl
  | cons word words ih =>
    cases buffer with
    | nil => cases k <;> rfl
    | cons slot buffer =>
      cases k with
      | zero => rfl
      | succ k => simp only [List.take_succ_cons, addRow, ih]

/-- Words of a product that lie beyond the buffer have no part in those that fit. -/
theorem addProduct_take (left right buffer : List UInt64) (k : ℕ) :
    addProduct left right (buffer.take k) = (addProduct left right buffer).take k := by
  induction left generalizing buffer k with
  | nil => rfl
  | cons factor left ih =>
    rw [addProduct, addProduct, addRow_take]
    cases addRow factor right buffer 0 with
    | nil => cases k <;> rfl
    | cons low window =>
      cases k with
      | zero => rfl
      | succ k => simp only [List.take_succ_cons, ih]

end Words

namespace Limbs

variable {n : ℕ}

theorem wrappingMul_eq (a b : Limbs n) : a.wrappingMul b = (a.wideningMul b).1 := by
  have htake : (List.replicate (n + n) (0 : UInt64)).take n = List.replicate n 0 := by
    rw [List.take_replicate, Nat.min_eq_left (Nat.le_add_left n n)]
  simp only [wrappingMul, wideningMul, productWords, ← Words.addProduct_take, htake]

theorem toNat_wrappingMul (a b : Limbs n) :
    (a.wrappingMul b).toNat = a.toNat * b.toNat % 2 ^ (64 * n) := by
  rw [wrappingMul_eq, ← toNat_wideningMul, Nat.add_mul_mod_self_left,
    Nat.mod_eq_of_lt (toNat_lt _)]

/-- Both products are exact, and neither loses a bit on its way: with every accumulator and every
overwritten slot watched, the loops fill their buffers with the same words. -/
theorem product_exact (a b : Limbs n) :
    (a.wideningMul b).1.toNat + (a.wideningMul b).2.toNat * 2 ^ (64 * n) = a.toNat * b.toNat ∧
      (a.wrappingMul b).toNat = a.toNat * b.toNat % 2 ^ (64 * n) ∧
      a.wrappingMul b = (a.wideningMul b).1 ∧
      Words.addProduct? a.words b.words (List.replicate (n + n) 0) =
        some ((a.wideningMul b).1.words ++ (a.wideningMul b).2.words) ∧
      Words.addProduct? a.words b.words (List.replicate n 0) = some (a.wrappingMul b).words := by
  have hzero : ∀ k, ∀ slot ∈ (List.replicate k (0 : UInt64)).drop b.words.length, slot = 0 :=
    fun k slot hslot => List.eq_of_mem_replicate (List.mem_of_mem_drop hslot)
  refine ⟨?_, toNat_wrappingMul a b, wrappingMul_eq a b, ?_, ?_⟩
  · rw [Nat.mul_comm (a.wideningMul b).2.toNat, toNat_wideningMul]
  · rw [Words.addProduct?_eq a.words (hzero (n + n))]
    exact congrArg some (List.take_append_drop n (productWords a b)).symm
  · exact Words.addProduct?_eq a.words (hzero n)

end Limbs
end AuthenticatedMpc
