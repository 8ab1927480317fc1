import Cboot.Mem

/-!
# The order of strings

`strncmp` compares two strings as `strncmp_compares` says: by the lexicographic order of
their unsigned characters (`LexLt`), as far as the bound, and without reading a byte past
their ends.

What it reads is told by `strncmpLoads`, in which a load may fail: it does not, if the
characters and the terminators before the bound can be loaded.
-/

namespace Cboot

/-- The lexicographic order of strings of unsigned characters. -/
def LexLt (a b : List UInt8) : Prop := List.Lex (fun c d => c.toNat < d.toNat) a b

theorem not_lexLt_nil (a : List UInt8) : ¬LexLt a [] := List.not_lex_nil

theorem lexLt_cons_iff {c d : UInt8} {a b : List UInt8} :
    LexLt (c :: a) (d :: b) ↔ c.toNat < d.toNat ∨ c = d ∧ LexLt a b := List.cons_lex_cons_iff

/-- `strncmp`, with every load of a character, in the order of the code: the characters are
    only compared when the first one is not zero, and are loaded again after the loop. -/
def strncmpLoads (load₁ : ℕ → Option UInt8) (s₁ : ℕ) (load₂ : ℕ → Option UInt8) (s₂ : ℕ) :
    (size : ℕ) → Option ℤ
  | 0 => some 0
  | size + 1 => do
    let more ←
      if (← load₁ s₁) ≠ 0 then do
        let c₁ ← load₁ s₁
        let c₂ ← load₂ s₂
        some (c₁ == c₂)
      else some false
    if more then strncmpLoads load₁ (s₁ + 1) load₂ (s₂ + 1) size
    else
      let c₁ ← load₁ s₁
      let c₂ ← load₂ s₂
      return c₁.toNat - c₂.toNat

section strncmp

variable {m₁ m₂ : Memory} {p₁ p₂ size : ℕ} {a b : List UInt8}

/-- Exchanging the strings exchanges the sign. -/
theorem strncmp_swap (m₁ : Memory) (p₁ : ℕ) (m₂ : Memory) (p₂ size : ℕ) :
    strncmp m₂ p₂ m₁ p₁ size = -strncmp m₁ p₁ m₂ p₂ size := by
  induction size generalizing p₁ p₂ with
  | zero => rfl
  | succ size ih =>
    rw [strncmp, strncmp]
    by_cases h : m₁ p₁ ≠ 0 ∧ m₁ p₁ = m₂ p₂
    · rw [if_pos h, if_pos ⟨h.2 ▸ h.1, h.2.symm⟩, ih]
    · have h' : ¬(m₂ p₂ ≠ 0 ∧ m₂ p₂ = m₁ p₁) := fun h' => h ⟨h'.2 ▸ h'.1, h'.2.symm⟩
      rw [if_neg h, if_neg h', Int.neg_sub]

/-- The result is negative if and only if the first string is the smaller one, as far as the
    bound. -/
theorem strncmp_neg_iff (h₁ : CString m₁ p₁ a) (h₂ : CString m₂ p₂ b) :
    strncmp m₁ p₁ m₂ p₂ size < 0 ↔ LexLt (a.take size) (b.take size) := by
  induction size generalizing p₁ p₂ a b with
  | zero =>
    rw [List.take_zero, List.take_zero]
    exact iff_of_false (Int.lt_irrefl _) (not_lexLt_nil _)
  | succ size ih =>
    rw [strncmp]
    cases b with
    | nil =>
      -- The second string has ended: the result is the character of the first one.
      have h₂ : m₂ p₂ = 0 := h₂
      rw [if_neg fun h => h.1 (h.2.trans h₂), h₂, List.take_nil]
      exact iff_of_false (by simp) (not_lexLt_nil _)
    | cons d b =>
      obtain ⟨rfl, hne₂, h₂⟩ := h₂
      have hpos : 0 < (m₂ p₂).toNat :=
        Nat.pos_of_ne_zero fun h => hne₂ (UInt8.toNat_inj.1 h)
      cases a with
      | nil =>
        have h₁ : m₁ p₁ = 0 := h₁
        rw [if_neg fun h => h.1 h₁, h₁, List.take_nil, List.take_succ_cons]
        exact iff_of_true (by simpa using hpos) .nil
      | cons c a =>
        obtain ⟨rfl, hne₁, h₁⟩ := h₁
        rw [List.take_succ_cons, List.take_succ_cons, lexLt_cons_iff]
        split
        · rename_i heq
          rw [ih h₁ h₂, and_iff_right heq.2, heq.2, or_iff_right (Nat.lt_irrefl _)]
        · rename_i hdiff
          have hdiff : m₁ p₁ ≠ m₂ p₂ := fun h => hdiff ⟨hne₁, h⟩
          rw [or_iff_left fun h => hdiff h.1]
          omega

/-- The loads that do not fail are enough: those of the characters and of the terminator of
    either string, before the bound. -/
theorem strncmpLoads_eq {load₁ load₂ : ℕ → Option UInt8} (h₁ : CString m₁ p₁ a)
    (h₂ : CString m₂ p₂ b)
    (hl₁ : ∀ i, i ≤ a.length → i < size → load₁ (p₁ + i) = some (m₁ (p₁ + i)))
    (hl₂ : ∀ i, i ≤ b.length → i < size → load₂ (p₂ + i) = some (m₂ (p₂ + i))) :
    strncmpLoads load₁ p₁ load₂ p₂ size = some (strncmp m₁ p₁ m₂ p₂ size) := by
  induction size generalizing p₁ p₂ a b with
  | zero => rfl
  | succ size ih =>
    have hc₁ := hl₁ 0 (Nat.zero_le _) (Nat.succ_pos _)
    have hc₂ := hl₂ 0 (Nat.zero_le _) (Nat.succ_pos _)
    rw [Nat.add_zero] at hc₁ hc₂
    rw [strncmpLoads, strncmp]
    by_cases h : m₁ p₁ ≠ 0 ∧ m₁ p₁ = m₂ p₂
    · -- Neither string has ended, and the next characters are loaded.
      cases a with
      | nil => exact absurd h₁ h.1
      | cons c a =>
        cases b with
        | nil => exact absurd (h.2.trans h₂) h.1
        | cons d b =>
          have ih := ih h₁.2.2 h₂.2.2
            (fun i hi hlt => by
              have := hl₁ (i + 1) (Nat.succ_le_succ hi) (Nat.succ_lt_succ hlt)
              rwa [Nat.add_comm i, ← Nat.add_assoc] at this)
            (fun i hi hlt => by
              have := hl₂ (i + 1) (Nat.succ_le_succ hi) (Nat.succ_lt_succ hlt)
              rwa [Nat.add_comm i, ← Nat.add_assoc] at this)
          rw [if_pos h]
          simpa [hc₁, hc₂, h.1, ← h.2] using ih
    · rw [if_neg h]
      by_cases hz : m₁ p₁ = 0
      · simp [hc₁, hc₂, hz]
      · have hne : m₁ p₁ ≠ m₂ p₂ := fun heq => h ⟨hz, heq⟩
        simp [hc₁, hc₂, hne]

-- The same string twice, in blocks that end with the terminator.
example : strncmpLoads (fun x => [0x61, 0][x]?) 0 (fun x => [0x61, 0][x]?) 0 8 = some 0 := by
  decide

/-- `strncmp` is the lexicographic comparison of the strings, cut at the bound. -/
structure ComparesStrings (m₁ : Memory) (p₁ : ℕ) (a : List UInt8) (m₂ : Memory) (p₂ : ℕ)
    (b : List UInt8) (size : ℕ) : Prop where
  zero : strncmp m₁ p₁ m₂ p₂ size = 0 ↔ a.take size = b.take size
  neg : strncmp m₁ p₁ m₂ p₂ size < 0 ↔ LexLt (a.take size) (b.take size)
  pos : 0 < strncmp m₁ p₁ m₂ p₂ size ↔ LexLt (b.take size) (a.take size)
  swap : strncmp m₂ p₂ m₁ p₁ size = -strncmp m₁ p₁ m₂ p₂ size
  loads : ∀ load₁ load₂ : ℕ → Option UInt8,
    (∀ i, i ≤ a.length → i < size → load₁ (p₁ + i) = some (m₁ (p₁ + i))) →
    (∀ i, i ≤ b.length → i < size → load₂ (p₂ + i) = some (m₂ (p₂ + i))) →
    strncmpLoads load₁ p₁ load₂ p₂ size = some (strncmp m₁ p₁ m₂ p₂ size)

theorem strncmp_compares (h₁ : CString m₁ p₁ a) (h₂ : CString m₂ p₂ b) (size : ℕ) :
    ComparesStrings m₁ p₁ a m₂ p₂ b size where
  zero := strncmp_eq_zero_iff h₁ h₂
  neg := strncmp_neg_iff h₁ h₂
  pos := by
    rw [← strncmp_neg_iff h₂ h₁, strncmp_swap m₁ p₁ m₂ p₂]
    exact Int.neg_lt_zero_iff.symm
  swap := strncmp_swap m₁ p₁ m₂ p₂ size
  loads := fun _ _ hl₁ hl₂ => strncmpLoads_eq h₁ h₂ hl₁ hl₂

/-- The second string ends first. -/
theorem strncmp_compares_ends :
    ComparesStrings (literal [0x61, 0x62]) 0 [0x61, 0x62] (literal [0x61]) 0 [0x61] 8 :=
  strncmp_compares (cString_literal (by simp)) (cString_literal (by simp)) 8

end strncmp

end Cboot
