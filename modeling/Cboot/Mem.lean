import Cboot.Lib.Memory

/-!
# Memory and string functions

The functions of `mem.c`. Pointers are addresses: nothing here is called with a
block reaching the end of the 64-bit address space, where they would wrap.

* `memset` stores its byte up to an aligned address, then quadwords, then the
  remaining bytes. The quadword it stores is the byte itself, not eight copies of
  it: it fills its block when the byte is zero (`memset_zero`), or when there is no
  quadword to store (`fills_iff`).
* `memcpy` goes the same three ways. It is the copy of the whole block at once when
  the blocks do not overlap, and when it copies downwards (`memcpy_eq_copy`).
* `memcmp` and `strncmp` compare as far as the first difference, `strncmp` no
  further than the end of the strings (`strncmp_eq_zero_iff`).
* `strncpy` copies the string held by a field, without its terminator, and returns
  its length (`strncpy_eq`).
-/

namespace Cboot

/-! ## Filling -/

/-- The bytes up to an aligned address, with the pointer reached. -/
def memsetHead (m : Memory) (dst8 stop : ℕ) (val : UInt8) : Memory × ℕ :=
  if dst8 % 8 ≠ 0 ∧ dst8 < stop then memsetHead (m.set dst8 val) (dst8 + 1) stop val
  else (m, dst8)
termination_by stop - dst8

/-- The quadwords. -/
def memsetWords (m : Memory) (dst64 stop : ℕ) (val : UInt8) : Memory × ℕ :=
  if dst64 + 8 < stop then memsetWords (m.write 8 dst64 val.toNat) (dst64 + 8) stop val
  else (m, dst64)
termination_by stop - dst64

/-- The final bytes. -/
def memsetTail (m : Memory) (dst8 stop : ℕ) (val : UInt8) : Memory :=
  if dst8 < stop then memsetTail (m.set dst8 val) (dst8 + 1) stop val else m
termination_by stop - dst8

/-- The bytes from `dst` on, `size` of them, are set to `val`, word by word in the middle. -/
def memset (m : Memory) (dst : ℕ) (val : UInt8) (size : ℕ) : Memory :=
  let (m, dst8) := memsetHead m dst (dst + size) val
  let (m, dst64) := memsetWords m dst8 (dst + size) val
  memsetTail m dst64 (dst + size) val

section memset

variable (m : Memory) (dst : ℕ) {k size : ℕ} {val : UInt8}

/-- Storing one more byte after a block extends it. -/
theorem fill_set (k : ℕ) (b : UInt8) :
    (m.fill dst k b).set (dst + k) b = m.fill dst (k + 1) b := by
  funext x
  simp only [Memory.set, Memory.fill]
  grind

/-- Storing a zero quadword after a block of zeros extends the block. -/
theorem fill_write_zero (k : ℕ) :
    (m.fill dst k 0).write 8 (dst + k) 0 = m.fill dst (k + 8) 0 := by
  funext x
  simp only [Memory.write, Memory.fill, Nat.zero_div]
  grind

theorem fill_zero (val : UInt8) : m.fill dst 0 val = m :=
  funext fun _ => Memory.fill_of_not_mem (by omega)

/-- The first loop fills up to the first aligned address, or to the end of the block. -/
theorem memsetHead_fill (val : UInt8) (h : k ≤ size) :
    ∃ k' ≤ size, memsetHead (m.fill dst k val) (dst + k) (dst + size) val =
        (m.fill dst k' val, dst + k') ∧ ((dst + k') % 8 = 0 ∨ k' = size) ∧
      ∀ j, k ≤ j → j < k' → (dst + j) % 8 ≠ 0 := by
  induction hn : size - k generalizing k with
  | zero =>
    rw [memsetHead, if_neg (by omega)]
    exact ⟨k, h, rfl, by omega, by omega⟩
  | succ n ih =>
    rw [memsetHead]
    split
    · rename_i hmis
      rw [fill_set]
      obtain ⟨k', hk', heq, hend, hmin⟩ := ih (k := k + 1) (by omega) (by omega)
      refine ⟨k', hk', heq, hend, fun j hj hlt => ?_⟩
      rcases Nat.eq_or_lt_of_le hj with rfl | hj
      · exact hmis.1
      · exact hmin j hj hlt
    · exact ⟨k, h, rfl, by omega, by omega⟩

theorem memsetWords_zero (h : k ≤ size) :
    ∃ k' ≤ size, memsetWords (m.fill dst k 0) (dst + k) (dst + size) 0 =
      (m.fill dst k' 0, dst + k') := by
  induction hn : size - k using Nat.strongRecOn generalizing k with
  | ind n ih =>
    rw [memsetWords]
    split
    · rw [UInt8.toNat_zero, fill_write_zero]
      exact ih (size - (k + 8)) (by omega) (by omega) rfl
    · exact ⟨k, h, rfl⟩

theorem memsetTail_fill (val : UInt8) (h : k ≤ size) :
    memsetTail (m.fill dst k val) (dst + k) (dst + size) val = m.fill dst size val := by
  induction hn : size - k generalizing k with
  | zero =>
    obtain rfl : k = size := by omega
    rw [memsetTail, if_neg (Nat.lt_irrefl _)]
  | succ n ih =>
    rw [memsetTail, if_pos (by omega), fill_set]
    exact ih (by omega) (by omega)

/-- Filling with zeros fills exactly the block. -/
theorem memset_zero (size : ℕ) : memset m dst 0 size = m.fill dst size 0 := by
  obtain ⟨k₁, hk₁, h₁, _⟩ := memsetHead_fill m dst 0 (Nat.zero_le size)
  obtain ⟨k₂, hk₂, h₂⟩ := memsetWords_zero m dst hk₁
  rw [fill_zero, Nat.add_zero] at h₁
  simp only [memset, h₁, h₂]
  exact memsetTail_fill m dst 0 hk₂

/-- The second byte of the first quadword is zero, and the loop does not come back to it. -/
theorem memsetWords_snd {p stop : ℕ} (val : UInt8) (h : p + 8 < stop) :
    ∃ m' p', memsetWords m p stop val = (m', p') ∧ m' (p + 1) = 0 ∧ p + 8 ≤ p' := by
  have key : ∀ n q (m : Memory), stop - q = n → p + 8 ≤ q → m (p + 1) = 0 →
      ∃ m' p', memsetWords m q stop val = (m', p') ∧ m' (p + 1) = 0 ∧ p + 8 ≤ p' := by
    intro n
    induction n using Nat.strongRecOn with
    | ind n ih =>
      intro q m hn hq hz
      rw [memsetWords]
      split
      · refine ih (stop - (q + 8)) (by omega) (q + 8) _ rfl (by omega) ?_
        rw [Memory.write_of_not_mem (by omega), hz]
      · exact ⟨m, q, rfl, hz, hq⟩
  rw [memsetWords, if_pos h]
  refine key _ (p + 8) _ rfl le_rfl ?_
  rw [Memory.write_of_mem (by decide), Nat.pow_one, Nat.div_eq_of_lt val.toNat_lt]
  rfl

theorem memsetTail_of_lt {p stop x : ℕ} (val : UInt8) (h : x < p) :
    memsetTail m p stop val x = m x := by
  induction hn : stop - p generalizing m p with
  | zero => rw [memsetTail, if_neg (by omega)]
  | succ n ih =>
    rw [memsetTail, if_pos (by omega), ih _ (by omega) (by omega)]
    exact Memory.set_of_ne m val (by omega)

/-- The first address from `dst` on that is aligned to a quadword. -/
def alignUp8 (dst : ℕ) : ℕ := (dst + 7) / 8 * 8

/-- A block of more than one quadword from its first aligned address on gets zeros. -/
theorem memset_word (h : alignUp8 dst + 8 < dst + size) :
    memset m dst val size (alignUp8 dst + 1) = 0 := by
  rw [alignUp8] at h ⊢
  obtain ⟨k, hk, heq, hend, hmin⟩ := memsetHead_fill m dst val (Nat.zero_le size)
  rw [fill_zero, Nat.add_zero] at heq
  have hstart : dst + k = (dst + 7) / 8 * 8 := by
    have := hmin ((dst + 7) / 8 * 8 - dst) (Nat.zero_le _)
    omega
  have hlt : dst + k + 8 < dst + size := by omega
  obtain ⟨m', p', hwords, hz, hp'⟩ := memsetWords_snd (m.fill dst k val) val hlt
  simp only [memset, heq, hwords]
  rw [memsetTail_of_lt m' val (by omega), ← hstart, hz]

/-- A block of at most one quadword from its first aligned address on is filled byte by byte. -/
theorem memset_bytes (val : UInt8) (h : dst + size ≤ alignUp8 dst + 8) :
    memset m dst val size = m.fill dst size val := by
  rw [alignUp8] at h
  obtain ⟨k, hk, heq, hend, hmin⟩ := memsetHead_fill m dst val (Nat.zero_le size)
  rw [fill_zero, Nat.add_zero] at heq
  have hwords : memsetWords (m.fill dst k val) (dst + k) (dst + size) val =
      (m.fill dst k val, dst + k) := by
    rw [memsetWords, if_neg (by omega)]
  simp only [memset, heq, hwords]
  exact memsetTail_fill m dst val hk

/-- What `memset` is for: the bytes of the block have the value, the others are kept. -/
def Fills (val : UInt8) (size : ℕ) : Prop :=
  (∀ x, dst ≤ x → x < dst + size → memset m dst val size x = val) ∧
    ∀ x, x < dst ∨ dst + size ≤ x → memset m dst val size x = m x

theorem fills_of_eq_fill (h : memset m dst val size = m.fill dst size val) :
    Fills m dst val size := by
  rw [Fills, h]
  exact ⟨fun x h₁ h₂ => Memory.fill_of_mem h₁ h₂, fun x hx => Memory.fill_of_not_mem hx⟩

theorem not_fills_of_word (hval : val ≠ 0) (h : alignUp8 dst + 8 < dst + size) :
    ¬Fills m dst val size := by
  rintro ⟨hin, _⟩
  have hbyte := hin (alignUp8 dst + 1) (by rw [alignUp8]; omega) (by omega)
  rw [memset_word m dst h] at hbyte
  exact hval hbyte.symm

/-- Another byte than zero only fills blocks in which no quadword is stored. -/
theorem fills_iff (val : UInt8) (size : ℕ) :
    Fills m dst val size ↔ val = 0 ∨ dst + size ≤ alignUp8 dst + 8 := by
  constructor
  · intro h
    by_contra hcond
    obtain ⟨hval, hlt⟩ := not_or.1 hcond
    exact not_fills_of_word m dst hval (Nat.lt_of_not_le hlt) h
  · rintro (rfl | h)
    · exact fills_of_eq_fill m dst (memset_zero m dst size)
    · exact fills_of_eq_fill m dst (memset_bytes m dst val h)

/-- Of 16 aligned bytes, the second to the eighth remain zero. -/
theorem not_fills_one : ¬Fills (fun _ => 0) 0 1 16 :=
  not_fills_of_word _ _ (by decide) (by decide)

end memset

/-! ## Copying -/

/-- The bytes up to an aligned destination, with the pointers reached. -/
def memcpyHead (m : Memory) (dst8 src8 stop : ℕ) : Memory × ℕ × ℕ :=
  if dst8 % 8 ≠ 0 ∧ dst8 < stop then
    memcpyHead (m.set dst8 (m src8)) (dst8 + 1) (src8 + 1) stop
  else (m, dst8, src8)
termination_by stop - dst8

/-- The quadwords. -/
def memcpyWords (m : Memory) (dst64 src64 stop : ℕ) : Memory × ℕ × ℕ :=
  if dst64 + 8 < stop then
    memcpyWords (m.write 8 dst64 (m.read 8 src64)) (dst64 + 8) (src64 + 8) stop
  else (m, dst64, src64)
termination_by stop - dst64

/-- The final bytes. -/
def memcpyTail (m : Memory) (dst8 src8 stop : ℕ) : Memory :=
  if dst8 < stop then memcpyTail (m.set dst8 (m src8)) (dst8 + 1) (src8 + 1) stop else m
termination_by stop - dst8

/-- The bytes from `src` on are copied in ascending order, word by word in the middle. -/
def memcpy (m : Memory) (dst src size : ℕ) : Memory :=
  let (m, dst8, src8) := memcpyHead m dst src (dst + size)
  let (m, dst64, src64) := memcpyWords m dst8 src8 (dst + size)
  memcpyTail m dst64 src64 (dst + size)

section memcpy

variable {m : Memory} {dst src k size : ℕ}

/-- The copy of the next byte: it has not been overwritten by the bytes copied
    before, whether the block is copied downwards or elsewhere. -/
theorem copy_set (hov : dst ≤ src ∨ src + size ≤ dst) (hk : k + 1 ≤ size) :
    (m.copy dst src k).set (dst + k) (m.copy dst src k (src + k)) = m.copy dst src (k + 1) := by
  have hsrc : m.copy dst src k (src + k) = m (src + k) := Memory.copy_of_not_mem (by omega)
  funext x
  rw [hsrc]
  simp only [Memory.set, Memory.copy]
  grind

/-- The copy of the next quadword. -/
theorem copy_write (hov : dst ≤ src ∨ src + size ≤ dst) (hk : k + 8 ≤ size) :
    (m.copy dst src k).write 8 (dst + k) ((m.copy dst src k).read 8 (src + k)) =
      m.copy dst src (k + 8) := by
  have hsrc : ∀ i < 8, m.copy dst src k (src + k + i) = m (src + k + i) :=
    fun i hi => Memory.copy_of_not_mem (by omega)
  funext x
  by_cases hx : dst + k ≤ x ∧ x < dst + k + 8
  · obtain ⟨i, rfl⟩ := Nat.exists_eq_add_of_le hx.1
    have hi : i < 8 := by omega
    rw [Memory.write_of_mem hi, ← Memory.byte_of_read hi, hsrc i hi,
      Memory.copy_of_mem (by omega) (by omega)]
    congr 1
    omega
  · rw [Memory.write_of_not_mem (by omega)]
    simp only [Memory.copy]
    grind

theorem memcpyHead_eq (hov : dst ≤ src ∨ src + size ≤ dst) (h : k ≤ size) :
    ∃ k' ≤ size, memcpyHead (m.copy dst src k) (dst + k) (src + k) (dst + size) =
      (m.copy dst src k', dst + k', src + k') := by
  induction hn : size - k generalizing k with
  | zero =>
    rw [memcpyHead, if_neg (by omega)]
    exact ⟨k, h, rfl⟩
  | succ n ih =>
    rw [memcpyHead]
    split
    · rw [copy_set hov (by omega)]
      exact ih (by omega) (by omega)
    · exact ⟨k, h, rfl⟩

theorem memcpyWords_eq (hov : dst ≤ src ∨ src + size ≤ dst) (h : k ≤ size) :
    ∃ k' ≤ size, memcpyWords (m.copy dst src k) (dst + k) (src + k) (dst + size) =
      (m.copy dst src k', dst + k', src + k') := by
  induction hn : size - k using Nat.strongRecOn generalizing k with
  | ind n ih =>
    rw [memcpyWords]
    split
    · rw [copy_write hov (by omega)]
      exact ih (size - (k + 8)) (by omega) (by omega) rfl
    · exact ⟨k, h, rfl⟩

theorem memcpyTail_eq (hov : dst ≤ src ∨ src + size ≤ dst) (h : k ≤ size) :
    memcpyTail (m.copy dst src k) (dst + k) (src + k) (dst + size) = m.copy dst src size := by
  induction hn : size - k generalizing k with
  | zero =>
    obtain rfl : k = size := by omega
    rw [memcpyTail, if_neg (Nat.lt_irrefl _)]
  | succ n ih =>
    rw [memcpyTail, if_pos (by omega), copy_set hov (by omega)]
    exact ih (by omega) (by omega)

/-- Copying to a block that does not overlap, or downwards to one that does, is
    copying all at once. -/
theorem memcpy_eq_copy (m : Memory) (hov : dst ≤ src ∨ src + size ≤ dst) :
    memcpy m dst src size = m.copy dst src size := by
  have h₀ : m = m.copy dst src 0 := by
    funext x
    exact (Memory.copy_of_not_mem (by omega)).symm
  obtain ⟨k₁, hk₁, h₁⟩ := memcpyHead_eq (m := m) hov (Nat.zero_le size)
  obtain ⟨k₂, hk₂, h₂⟩ := memcpyWords_eq (m := m) hov hk₁
  rw [← h₀, Nat.add_zero, Nat.add_zero] at h₁
  simp only [memcpy, h₁, h₂]
  exact memcpyTail_eq hov hk₂

/-- The first loop stays in the block, and so does the pointer it reaches. -/
theorem memcpyHead_frame {start stop x d s : ℕ} (hx : x < start ∨ stop ≤ x) (hd : start ≤ d) :
    (memcpyHead m d s stop).1 x = m x ∧ start ≤ (memcpyHead m d s stop).2.1 := by
  induction hn : stop - d generalizing m d s with
  | zero =>
    rw [memcpyHead, if_neg (by omega)]
    exact ⟨rfl, hd⟩
  | succ n ih =>
    rw [memcpyHead]
    split
    · obtain ⟨hm, hle⟩ := @ih (m.set d (m s)) (d + 1) (s + 1) (by omega) (by omega)
      exact ⟨hm.trans (Memory.set_of_ne _ _ (by omega)), hle⟩
    · exact ⟨rfl, hd⟩

theorem memcpyWords_frame {start stop x d s : ℕ} (hx : x < start ∨ stop ≤ x) (hd : start ≤ d) :
    (memcpyWords m d s stop).1 x = m x ∧ start ≤ (memcpyWords m d s stop).2.1 := by
  induction hn : stop - d using Nat.strongRecOn generalizing m d s with
  | ind n ih =>
    rw [memcpyWords]
    split
    · -- A quadword is only stored in front of the end of the block.
      obtain ⟨hm, hle⟩ := @ih _ (by omega) (m.write 8 d (m.read 8 s)) (d + 8) (s + 8) (by omega) rfl
      exact ⟨hm.trans (Memory.write_of_not_mem (by omega)), hle⟩
    · exact ⟨rfl, hd⟩

theorem memcpyTail_frame {start stop x d s : ℕ} (hx : x < start ∨ stop ≤ x) (hd : start ≤ d) :
    memcpyTail m d s stop x = m x := by
  induction hn : stop - d generalizing m d s with
  | zero => rw [memcpyTail, if_neg (by omega)]
  | succ n ih =>
    rw [memcpyTail, if_pos (by omega), ih (by omega) (by omega)]
    exact Memory.set_of_ne _ _ (by omega)

/-- Whatever the blocks are, nothing outside the destination is written. -/
theorem memcpy_frame (m : Memory) (src : ℕ) {x : ℕ} (hx : x < dst ∨ dst + size ≤ x) :
    memcpy m dst src size x = m x := by
  obtain ⟨h₁, hd₁⟩ := @memcpyHead_frame m dst (dst + size) x dst src hx le_rfl
  rcases heq₁ : memcpyHead m dst src (dst + size) with ⟨m₁, d₁, s₁⟩
  rw [heq₁] at h₁ hd₁
  obtain ⟨h₂, hd₂⟩ := @memcpyWords_frame m₁ dst (dst + size) x d₁ s₁ hx hd₁
  rcases heq₂ : memcpyWords m₁ d₁ s₁ (dst + size) with ⟨m₂, d₂, s₂⟩
  rw [heq₂] at h₂ hd₂
  simp only [memcpy, heq₁, heq₂]
  exact (memcpyTail_frame hx hd₂).trans (h₂.trans h₁)

/-- Every byte of the source is found at its place, as it was before the copy, and nothing
    else is changed. -/
theorem memcpy_copies (m : Memory) (hov : dst ≤ src ∨ src + size ≤ dst) :
    (∀ i < size, memcpy m dst src size (dst + i) = m (src + i)) ∧
      ∀ x, x < dst ∨ dst + size ≤ x → memcpy m dst src size x = m x := by
  rw [memcpy_eq_copy m hov]
  refine ⟨fun i hi => ?_, fun x hx => Memory.copy_of_not_mem hx⟩
  rw [Memory.copy_of_mem (by omega) (by omega), Nat.add_sub_cancel_left]

/-- A block of 20 bytes copied down by 4. -/
theorem memcpy_copies_down :
    (∀ i < 20, memcpy (fun x => .ofNat x) 1 5 20 (1 + i) = .ofNat (5 + i)) ∧
      ∀ x, x < 1 ∨ 1 + 20 ≤ x → memcpy (fun x => .ofNat x) 1 5 20 x = .ofNat x :=
  memcpy_copies _ (.inl (by decide))

end memcpy

/-! ## Comparing -/

/-- `0` if the blocks are equal, `1` if they are not. -/
def memcmp (m₁ : Memory) (s₁ : ℕ) (m₂ : Memory) (s₂ : ℕ) : (size : ℕ) → ℕ
  | 0 => 0
  | size + 1 => if m₁ s₁ ≠ m₂ s₂ then 1 else memcmp m₁ (s₁ + 1) m₂ (s₂ + 1) size

theorem memcmp_eq_zero_iff {m₁ m₂ : Memory} {s₁ s₂ size : ℕ} :
    memcmp m₁ s₁ m₂ s₂ size = 0 ↔ ∀ i < size, m₁ (s₁ + i) = m₂ (s₂ + i) := by
  induction size generalizing s₁ s₂ with
  | zero => simp [memcmp]
  | succ size ih =>
    rw [memcmp]
    split
    · rename_i hne
      exact ⟨fun h => absurd h Nat.one_ne_zero, fun h => absurd (h 0 (Nat.succ_pos _)) hne⟩
    · rename_i heq
      rw [ih]
      constructor
      · rintro h (_ | i) hi
        · exact not_not.1 heq
        · have := h i (Nat.lt_of_succ_lt_succ hi)
          rwa [Nat.add_right_comm, Nat.add_assoc, Nat.add_right_comm, Nat.add_assoc s₂] at this
      · intro h i hi
        have := h (i + 1) (Nat.succ_lt_succ hi)
        rwa [Nat.add_right_comm, Nat.add_assoc, Nat.add_right_comm, Nat.add_assoc s₂]

/-- The difference of the bytes at which the comparison stops. -/
def strncmp (m₁ : Memory) (s₁ : ℕ) (m₂ : Memory) (s₂ : ℕ) : (size : ℕ) → ℤ
  | 0 => 0
  | size + 1 =>
    if m₁ s₁ ≠ 0 ∧ m₁ s₁ = m₂ s₂ then strncmp m₁ (s₁ + 1) m₂ (s₂ + 1) size
    else (m₁ s₁).toNat - (m₂ s₂).toNat

/-- The memory holds the string `s` at the address `p`, with its terminator. -/
def CString (m : Memory) : ℕ → List UInt8 → Prop
  | p, [] => m p = 0
  | p, c :: s => m p = c ∧ c ≠ 0 ∧ CString m (p + 1) s

/-- The strings compare equal if and only if they are, as far as the bound. -/
theorem strncmp_eq_zero_iff {m₁ m₂ : Memory} {p₁ p₂ size : ℕ} {s₁ s₂ : List UInt8}
    (h₁ : CString m₁ p₁ s₁) (h₂ : CString m₂ p₂ s₂) :
    strncmp m₁ p₁ m₂ p₂ size = 0 ↔ s₁.take size = s₂.take size := by
  induction size generalizing p₁ p₂ s₁ s₂ with
  | zero => simp [strncmp]
  | succ size ih =>
    cases s₁ with
    | nil =>
      cases s₂ with
      | nil => simp_all [strncmp, CString]
      | cons c₂ s₂ =>
        obtain ⟨rfl, hne, _⟩ := h₂
        have : (m₂ p₂).toNat ≠ 0 := fun h => hne (UInt8.toNat_inj.1 h)
        have h₁ : m₁ p₁ = 0 := h₁
        simp only [strncmp, h₁, ne_eq, not_true_eq_false, false_and, if_false, List.take_nil,
          List.take_succ_cons, UInt8.toNat_zero]
        exact ⟨fun h => absurd h (by omega), fun h => absurd h (by simp)⟩
    | cons c₁ s₁ =>
      obtain ⟨rfl, hne₁, h₁⟩ := h₁
      cases s₂ with
      | nil =>
        have h₂ : m₂ p₂ = 0 := h₂
        have : (m₁ p₁).toNat ≠ 0 := fun h => hne₁ (UInt8.toNat_inj.1 h)
        rw [strncmp, h₂, if_neg fun h => hne₁ h.2]
        simp only [List.take_nil, List.take_succ_cons, UInt8.toNat_zero]
        exact ⟨fun h => absurd h (by omega), fun h => absurd h (by simp)⟩
      | cons c₂ s₂ =>
        obtain ⟨rfl, hne₂, h₂⟩ := h₂
        rw [strncmp, List.take_succ_cons, List.take_succ_cons, List.cons.injEq]
        split
        · rename_i heq
          rw [ih h₁ h₂, and_iff_right heq.2]
        · rename_i hdiff
          have hdiff : m₁ p₁ ≠ m₂ p₂ := fun h => hdiff ⟨hne₁, h⟩
          have : (m₁ p₁).toNat ≠ (m₂ p₂).toNat := fun h => hdiff (UInt8.toNat_inj.1 h)
          exact ⟨fun h => absurd h (by omega), fun h => absurd h.1 hdiff⟩

/-- A string is equal to what another block holds, as far as the bound, if and only if
    its characters are found there, and its terminator after them. -/
theorem strncmp_eq_zero_iff_forall {m₁ m₂ : Memory} {p₁ p₂ size : ℕ} {s : List UInt8}
    (h : CString m₁ p₁ s) : strncmp m₁ p₁ m₂ p₂ size = 0 ↔
      ∀ i ≤ s.length, i < size → m₂ (p₂ + i) = s.getD i 0 := by
  induction size generalizing p₁ p₂ s with
  | zero => exact iff_of_true rfl fun i _ hi => absurd hi (Nat.not_lt_zero i)
  | succ size ih =>
    rw [strncmp]
    cases s with
    | nil =>
      have h : m₁ p₁ = 0 := h
      rw [if_neg fun hne => hne.1 h, h]
      constructor
      · intro heq i hi _
        obtain rfl : i = 0 := Nat.le_zero.1 hi
        exact UInt8.toNat_inj.1 (by simpa using heq)
      · intro hall
        have h₀ := hall 0 le_rfl (Nat.succ_pos size)
        rw [Nat.add_zero] at h₀
        rw [h₀]
        rfl
    | cons c s =>
      obtain ⟨rfl, hne, h⟩ := h
      split
      · rename_i heq
        rw [ih h]
        constructor
        · rintro hall (_ | i) hi hsize
          · exact heq.2.symm
          · have := hall i (Nat.le_of_succ_le_succ hi) (Nat.lt_of_succ_lt_succ hsize)
            rwa [Nat.add_assoc, Nat.add_comm 1] at this
        · intro hall i hi hsize
          have := hall (i + 1) (Nat.succ_le_succ hi) (Nat.succ_lt_succ hsize)
          rwa [Nat.add_comm i, ← Nat.add_assoc, Nat.add_comm 1] at this
      · rename_i hdiff
        have hdiff : m₁ p₁ ≠ m₂ p₂ := fun heq => hdiff ⟨hne, heq⟩
        refine iff_of_false (fun heq => hdiff (UInt8.toNat_inj.1 (by omega))) fun hall => ?_
        exact hdiff (hall 0 (Nat.zero_le _) (Nat.succ_pos size)).symm

/-- A string held by a memory has no zero in it. -/
theorem CString.ne_zero {m : Memory} {p : ℕ} {s : List UInt8} (h : CString m p s) :
    ∀ c ∈ s, c ≠ 0 := by
  induction s generalizing p with
  | nil => exact fun c hc => absurd hc List.not_mem_nil
  | cons c s ih =>
    intro b hb
    rcases List.mem_cons.1 hb with rfl | hb
    · exact h.2.1
    · exact ih h.2.2 b hb

/-- A string held by a memory is the only one. -/
theorem CString.unique {m : Memory} {p : ℕ} {s s' : List UInt8} (h : CString m p s)
    (h' : CString m p s') : s = s' := by
  induction s generalizing p s' with
  | nil =>
    cases s' with
    | nil => rfl
    | cons c' s' => exact absurd (h'.1.symm.trans h) h'.2.1
  | cons c s ih =>
    cases s' with
    | nil => exact absurd (h.1.symm.trans h') h.2.1
    | cons c' s' => rw [h.1.symm.trans h'.1, ih h.2.2 h'.2.2]

/-- A string only depends on its characters and its terminator. -/
theorem CString.congr {m m' : Memory} {p : ℕ} {s : List UInt8} (h : CString m p s)
    (heq : ∀ x, p ≤ x → x ≤ p + s.length → m' x = m x) : CString m' p s := by
  induction s generalizing p with
  | nil => exact (heq p le_rfl le_rfl).trans h
  | cons c s ih =>
    obtain ⟨hc, hne, h⟩ := h
    refine ⟨(heq p le_rfl (Nat.le_add_right _ _)).trans hc, hne, ih h fun x h₁ h₂ => ?_⟩
    rw [List.length_cons] at heq
    exact heq x (by omega) (by omega)

/-- A string, told byte by byte. -/
theorem cString_of_getD {m : Memory} {p : ℕ} {s : List UInt8} (hs : ∀ c ∈ s, c ≠ 0)
    (h : ∀ i ≤ s.length, m (p + i) = s.getD i 0) : CString m p s := by
  induction s generalizing p with
  | nil => exact h 0 le_rfl
  | cons c s ih =>
    refine ⟨h 0 (Nat.zero_le _), hs c List.mem_cons_self,
      ih (fun b hb => hs b (List.mem_cons_of_mem _ hb)) fun i hi => ?_⟩
    rw [Nat.add_assoc, Nat.add_comm 1]
    exact h (i + 1) (Nat.succ_le_succ hi)

/-- A string literal. -/
def literal (s : List UInt8) : Memory := fun x => s.getD x 0

theorem cString_literal {s : List UInt8} (hs : ∀ c ∈ s, c ≠ 0) : CString (literal s) 0 s :=
  cString_of_getD hs fun i _ => by rw [Nat.zero_add, literal]

/-! ## Copying strings -/

/-- Returns the number of bytes copied; the terminator is not copied. -/
def strncpy (d : Memory) (dst : ℕ) (m : Memory) (src : ℕ) : (sz : ℕ) → Memory × ℕ
  | 0 => (d, 0)
  | sz + 1 =>
    if m src ≠ 0 then
      let (d, counter) := strncpy (d.set dst (m src)) (dst + 1) m (src + 1) sz
      (d, counter + 1)
    else (d, 0)

/-- The string held by a field of `n` bytes, which it may fill without a terminator. -/
def fieldString (m : Memory) (p : ℕ) : (n : ℕ) → List UInt8
  | 0 => []
  | n + 1 => if m p ≠ 0 then m p :: fieldString m (p + 1) n else []

theorem fieldString_length_le (m : Memory) (p n : ℕ) : (fieldString m p n).length ≤ n := by
  induction n generalizing p with
  | zero => exact Nat.le_refl 0
  | succ n ih =>
    rw [fieldString]
    split
    · exact Nat.succ_le_succ (ih (p + 1))
    · exact Nat.zero_le _

theorem ne_zero_of_mem_fieldString {m : Memory} {p n : ℕ} {c : UInt8}
    (h : c ∈ fieldString m p n) : c ≠ 0 := by
  induction n generalizing p with
  | zero => exact absurd h List.not_mem_nil
  | succ n ih =>
    rw [fieldString] at h
    split at h
    · rename_i hne
      rcases List.mem_cons.1 h with rfl | h
      · exact hne
      · exact ih h
    · exact absurd h List.not_mem_nil

/-- The string of the field is stored at the destination, and its length returned. -/
theorem strncpy_eq (d : Memory) (dst : ℕ) (m : Memory) (src sz : ℕ) :
    strncpy d dst m src sz =
      (d.store dst (fieldString m src sz), (fieldString m src sz).length) := by
  induction sz generalizing d dst src with
  | zero => rfl
  | succ sz ih =>
    rw [strncpy, fieldString]
    split
    · rw [ih]
      rfl
    · rfl

/-- Characters stored in front of a zero byte are a string. -/
theorem cString_store {d : Memory} {p : ℕ} {s : List UInt8} (hs : ∀ c ∈ s, c ≠ 0)
    (h₀ : d (p + s.length) = 0) : CString (d.store p s) p s := by
  induction s generalizing d p with
  | nil => exact h₀
  | cons c s ih =>
    have hlen : p + (c :: s).length = p + 1 + s.length := by
      rw [List.length_cons, Nat.add_assoc p, Nat.add_comm 1]
    refine ⟨?_, hs c List.mem_cons_self, ih (fun b hb => hs b (List.mem_cons_of_mem _ hb)) ?_⟩
    · rw [Memory.store, Memory.store_of_lt (Nat.lt_succ_self p), Memory.set_self]
    · rw [Memory.set_of_ne _ _ (by omega), ← hlen, h₀]

end Cboot
