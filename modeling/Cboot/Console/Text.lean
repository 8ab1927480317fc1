import Cboot.Console.Print

/-!
# Reading printed texts

The characters of string literals (`ascii`), and the numerals among them: what `putx64` and
`putd` print tells the number, and has no character in it that is not a digit.
-/

namespace Cboot

open Fueled

/-! ## String literals -/

/-- The characters of a string literal. -/
def ascii (s : String) : List UInt8 := s.toList.map fun c => .ofNat c.toNat

theorem ascii_ne_zero {s : String} (h : (s.toList.all fun c => c.toNat % 256 != 0) = true) :
    ∀ c ∈ ascii s, c ≠ 0 := by
  intro c hc hz
  obtain ⟨c, hmem, rfl⟩ := List.mem_map.1 hc
  have hne := List.all_eq_true.1 h c hmem
  have hnat := congrArg UInt8.toNat hz
  rw [UInt8.toNat_ofNat', UInt8.toNat_zero] at hnat
  rw [hnat] at hne
  exact absurd hne (by decide)

/-- `puts` ends if and only if there is a string, and prints the string. -/
theorem puts_returns_iff {m : Memory} {s : ℕ} {out out' : List UInt8} :
    (puts m s out).Returns out' ↔ ∃ str, CString m s str ∧ out' = out ++ str := by
  constructor
  · intro h
    obtain ⟨str, hstr⟩ : ∃ str, CString m s str := by
      refine Returns.loop_rec (P := fun r => ∃ str, CString m r.1 str) h ?_ ?_
      · rintro ⟨s, out⟩ h
        rw [putsRound] at h
        split_ifs at h with hne
        · exact absurd (returns_pure_iff.1 h) (by simp)
        · exact ⟨[], not_not.1 hne⟩
      · rintro ⟨s, out⟩ s' h ⟨str, hstr⟩
        rw [putsRound] at h
        split_ifs at h with hne
        · obtain rfl := Sum.inl.inj (returns_pure_iff.1 h)
          exact ⟨m s :: str, rfl, hne, hstr⟩
        · exact absurd (returns_pure_iff.1 h) (by simp)
    exact ⟨str, hstr, h.unique (puts_returns hstr out)⟩
  · rintro ⟨str, hstr, rfl⟩
    exact puts_returns hstr out

theorem puts_ascii {s : String} (h : (s.toList.all fun c => c.toNat % 256 != 0) = true)
    (out : List UInt8) : (puts (literal (ascii s)) 0 out).Returns (out ++ ascii s) :=
  puts_returns (cString_literal (ascii_ne_zero h)) out

/-! ## Numerals -/

section numeral

variable {n a b : ℕ}

theorem hexNumeral_succ (n val : ℕ) :
    hexNumeral (n + 1) val = hexDigit (val / 16 ^ n % 16) :: hexNumeral n val := by
  rw [hexNumeral, List.range_succ_eq_map, List.map_cons, List.map_map]
  refine congrArg _ (List.map_congr_left fun i _ => ?_)
  have hsub : n + 1 - 1 - (i + 1) = n - 1 - i := by omega
  simp only [Function.comp_apply, Nat.succ_eq_add_one, hsub]

theorem hexDigit_inj : ∀ d < 16, ∀ d' < 16, hexDigit d = hexDigit d' → d = d' := by decide

/-- The digits of a number tell the number, as far as they go. -/
theorem hexNumeral_inj (h : hexNumeral n a = hexNumeral n b) : a % 16 ^ n = b % 16 ^ n := by
  induction n with
  | zero => rw [Nat.pow_zero, Nat.mod_one, Nat.mod_one]
  | succ n ih =>
    rw [hexNumeral_succ, hexNumeral_succ, List.cons.injEq] at h
    rw [Nat.mod_pow_succ, Nat.mod_pow_succ, ih h.2, hexDigit_inj _ (Nat.mod_lt _ (by decide)) _
      (Nat.mod_lt _ (by decide)) h.1]

/-- A number of 64 bits is told by what `putx64` prints. -/
theorem hexNumeral_16_inj (ha : a < 2 ^ 64) (hb : b < 2 ^ 64)
    (h : hexNumeral 16 a = hexNumeral 16 b) : a = b := by
  have h := hexNumeral_inj h
  have hpow : (16 : ℕ) ^ 16 = 2 ^ 64 := by decide
  rwa [hpow, Nat.mod_eq_of_lt ha, Nat.mod_eq_of_lt hb] at h

theorem decimal_inj (h : decimal a = decimal b) : a = b := by
  rw [← (decimal_isNumeral a).value, ← (decimal_isNumeral b).value, h]

theorem not_mem_decimal {c : UInt8} (hc : c < 0x30 ∨ 0x39 < c) (n : ℕ) : c ∉ decimal n := by
  intro hmem
  have hdigit := (decimal_isNumeral n).digits c hmem
  rw [UInt8.le_iff_toNat_le, UInt8.le_iff_toNat_le] at hdigit
  rw [UInt8.lt_iff_toNat_lt, UInt8.lt_iff_toNat_lt] at hc
  omega

theorem not_mem_hexNumeral {c : UInt8} (hc : ¬IsHexDigit c) (n val : ℕ) :
    c ∉ hexNumeral n val := by
  intro hmem
  obtain ⟨i, _, rfl⟩ := List.mem_map.1 hmem
  exact hc (hexDigit_spec _ (Nat.mod_lt _ (by decide))).1

end numeral

end Cboot
