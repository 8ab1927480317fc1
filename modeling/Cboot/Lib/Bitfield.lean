import Mathlib.Data.Nat.Bitwise

/-!
# Bit-fields

A bit-field is a range of the bits of a number: `w` of them, from the bit `lo` on.

* `testBit_getField`, `testBit_setField`: what it takes and gives, bit by bit;
* `getField_setField`, `getField_setField_of_disjoint`: what is stored in a bit-field is
  read back from it, and not from the others;
* `setField_lt`: a bit-field of a word stays in the word.
-/

namespace Bitfield

/-- The bit-field of `w` bits from the bit `lo` on. -/
def getField (raw lo w : ℕ) : ℕ := raw / 2 ^ lo % 2 ^ w

/-- Assigning `v` to the bit-field of `w` bits from the bit `lo` on. -/
def setField (raw lo w v : ℕ) : ℕ :=
  raw % 2 ^ lo + v % 2 ^ w * 2 ^ lo + raw / 2 ^ (lo + w) * 2 ^ (lo + w)

variable (raw lo w v i : ℕ)

theorem testBit_getField :
    (getField raw lo w).testBit i = (decide (i < w) && raw.testBit (lo + i)) := by
  rw [getField, Nat.testBit_mod_two_pow, Nat.testBit_div_two_pow, Nat.add_comm]

theorem testBit_setField :
    (setField raw lo w v).testBit i =
      if lo ≤ i ∧ i < lo + w then v.testBit (i - lo) else raw.testBit i := by
  have hsplit : setField raw lo w v =
      2 ^ lo * (2 ^ w * (raw / 2 ^ (lo + w)) + v % 2 ^ w) + raw % 2 ^ lo := by
    rw [setField, Nat.pow_add, Nat.mul_add, ← Nat.mul_assoc]
    ac_rfl
  rw [hsplit, Nat.testBit_two_pow_mul_add _ (Nat.mod_lt _ (Nat.two_pow_pos lo))]
  split
  · -- Below the field.
    rename_i hlt
    rw [Nat.testBit_mod_two_pow, decide_eq_true hlt, Bool.true_and, if_neg (by omega)]
  · rw [Nat.testBit_two_pow_mul_add _ (Nat.mod_lt _ (Nat.two_pow_pos w))]
    split
    · -- In the field.
      rename_i hlt
      rw [Nat.testBit_mod_two_pow, decide_eq_true hlt, Bool.true_and, if_pos (by omega)]
    · -- Above the field.
      rw [Nat.testBit_div_two_pow, if_neg (by omega)]
      congr 1
      omega

/-- What is stored in a bit-field is read back from it, truncated to its width. -/
theorem getField_setField : getField (setField raw lo w v) lo w = v % 2 ^ w := by
  refine Nat.eq_of_testBit_eq fun i => ?_
  rw [testBit_getField, testBit_setField, Nat.testBit_mod_two_pow]
  by_cases h : i < w
  · rw [if_pos (by omega), Nat.add_sub_cancel_left]
  · rw [decide_eq_false h, Bool.false_and, Bool.false_and]

/-- Other bit-fields keep their values. -/
theorem getField_setField_of_disjoint {lo' w' : ℕ} (h : lo' + w' ≤ lo ∨ lo + w ≤ lo') :
    getField (setField raw lo w v) lo' w' = getField raw lo' w' := by
  refine Nat.eq_of_testBit_eq fun i => ?_
  rw [testBit_getField, testBit_getField, testBit_setField]
  by_cases hi : i < w'
  · rw [if_neg (by omega)]
  · rw [decide_eq_false hi, Bool.false_and, Bool.false_and]

/-- A bit-field of a word stays in the word. -/
theorem setField_lt {k : ℕ} (hraw : raw < 2 ^ k) (hk : lo + w ≤ k) :
    setField raw lo w v < 2 ^ k := by
  refine Nat.lt_pow_two_of_testBit _ fun i hi => ?_
  rw [testBit_setField, if_neg (by omega)]
  exact Nat.testBit_lt_two_pow (hraw.trans_le (Nat.pow_le_pow_right (by decide) hi))

end Bitfield
