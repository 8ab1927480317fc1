import Cboot.Paging.Entry

/-!
# The address field, bit by bit

The field that `SET_PTE_ADDRESS` and `GET_PTE_ADDRESS` use is that of the bits 11 to 52
(`testBit_getPteAddress`, `testBit_setPteAddress`), where the layout of `paging.h` has the
bits 12 to 51: `accessorsExact_iff` says which entries the two extra bits are harmless for.
-/

namespace Cboot

open Bitfield PageTableEntry

section field

variable (r n i : ℕ)

theorem testBit_getPteAddress :
    (getPteAddress r).testBit i = (decide (11 ≤ i ∧ i ≤ 52) && r.testBit i) := by
  rw [getPteAddress, addr, Nat.testBit_mul_two_pow, testBit_getField]
  by_cases h : 11 ≤ i
  · rw [Nat.add_sub_cancel' h, ← Bool.and_assoc, ← Bool.decide_and]
    exact congrArg (· && r.testBit i) (decide_eq_decide.2 (by omega))
  · have h' : ¬(11 ≤ i ∧ i ≤ 52) := fun h' => h h'.1
    rw [decide_eq_false h, decide_eq_false h', Bool.false_and, Bool.false_and]

theorem testBit_setPteAddress :
    (setPteAddress r n).testBit i = if 11 ≤ i ∧ i ≤ 52 then n.testBit i else r.testBit i := by
  rw [setPteAddress, setAddr, testBit_setField]
  refine ite_congr (propext (by omega)) (fun h => ?_) fun _ => rfl
  rw [Nat.testBit_div_two_pow, Nat.sub_add_cancel h.1]

end field

/-- What is stored in the field is read back from it. -/
theorem getPteAddress_setPteAddress (r : ℕ) {n : ℕ} (ha : n % 2 ^ 12 = 0) (hn : n < 2 ^ 52) :
    getPteAddress (setPteAddress r n) = n := by
  simp only [getPteAddress, setPteAddress, addr, setAddr, getField, setField]
  omega

/-- The bits of a page in the physical address space are those of the hardware's field. -/
theorem testBit_page {n i : ℕ} (ha : n % 2 ^ 12 = 0) (hn : n < 2 ^ 52)
    (hi : ¬(12 ≤ i ∧ i ≤ 51)) : n.testBit i = false := by
  by_cases h : i < 12
  · have hmod := Nat.testBit_mod_two_pow n 12 i
    rwa [ha, Nat.zero_testBit, decide_eq_true h, Bool.true_and, eq_comm] at hmod
  · exact Nat.testBit_lt_two_pow (hn.trans_le (Nat.pow_le_pow_right (by decide) (by omega)))

/-- The accessors use the field that the layout gives the address: the bits 12 to 51. -/
structure AccessorsExact (r : ℕ) : Prop where
  get : ∀ i, (getPteAddress r).testBit i = (decide (12 ≤ i ∧ i ≤ 51) && r.testBit i)
  set : ∀ n, n % 2 ^ 12 = 0 → n < 2 ^ 52 → ∀ i, ¬(12 ≤ i ∧ i ≤ 51) →
    (setPteAddress r n).testBit i = r.testBit i
  get_set : ∀ n, n % 2 ^ 12 = 0 → n < 2 ^ 52 → getPteAddress (setPteAddress r n) = n

/-- They do if and only if the bits next to the field are clear. -/
theorem accessorsExact_iff (r : ℕ) :
    AccessorsExact r ↔ r.testBit 11 = false ∧ r.testBit 52 = false := by
  constructor
  · intro h
    have h₁₁ := h.get 11
    have h₅₂ := h.get 52
    rw [testBit_getPteAddress] at h₁₁ h₅₂
    exact ⟨by simpa using h₁₁, by simpa using h₅₂⟩
  · rintro ⟨h₁₁, h₅₂⟩
    -- Outside the hardware's field, the code's field has these two bits only.
    have hclear : ∀ i, ¬(12 ≤ i ∧ i ≤ 51) → 11 ≤ i ∧ i ≤ 52 → r.testBit i = false := by
      intro i hout hin
      obtain rfl | rfl : i = 11 ∨ i = 52 := by omega
      · exact h₁₁
      · exact h₅₂
    refine ⟨fun i => ?_, fun n ha hn i hi => ?_, fun n => getPteAddress_setPteAddress r⟩
    · rw [testBit_getPteAddress]
      by_cases hi : 12 ≤ i ∧ i ≤ 51
      · rw [decide_eq_true hi, decide_eq_true (by omega)]
      · rw [decide_eq_false hi, Bool.false_and, Bool.and_eq_false_imp]
        exact fun h => hclear i hi (of_decide_eq_true h)
    · rw [testBit_setPteAddress]
      split
      · rename_i hin
        rw [testBit_page ha hn hi, hclear i hi hin]
      · rfl

/-- An entry with the last of the bits that the layout leaves to the operating system. -/
theorem not_accessorsExact : ¬AccessorsExact 0x800 :=
  fun h => absurd (h.get 11) (by decide)

end Cboot
