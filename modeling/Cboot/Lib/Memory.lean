import Mathlib.Algebra.Ring.Nat
import Mathlib.Tactic.Common

/-!
# Byte-addressed memory

A memory gives a byte to every address. Words are stored in little-endian order:
`m.read n a` is the number held by the `n` bytes from the address `a`, and
`m.write n a v` stores `v` there.

* A word read back is what was written (`read_write`), truncated to its width;
* a word only depends on its own bytes (`read_congr`), so that it survives every
  write that keeps off them (`read_write_of_disjoint`);
* `m.fill a n v`, `m.copy dst src n` and `m.store a bs` are the operations on
  blocks: a block of one byte, a block copied all at once, a list of bytes;
* `m.splice a above` is one memory below an address, and another one above.
-/

/-- A byte for every address. -/
abbrev Memory := ℕ → UInt8

namespace Memory

variable {m m' : Memory} {n n' a a' v x : ℕ}

/-- Storing the byte `b` at the address `a`. -/
def set (m : Memory) (a : ℕ) (b : UInt8) : Memory := fun x => if x = a then b else m x

@[simp] theorem set_self (m : Memory) (a : ℕ) (b : UInt8) : m.set a b a = b := if_pos rfl

theorem set_of_ne (m : Memory) {a x : ℕ} (b : UInt8) (h : x ≠ a) : m.set a b x = m x := if_neg h

/-! ## Words -/

/-- The little-endian word of `n` bytes at the address `a`. -/
def read (m : Memory) : (n a : ℕ) → ℕ
  | 0, _ => 0
  | n + 1, a => (m a).toNat + 256 * read m n (a + 1)

/-- Storing the little-endian word `v` of `n` bytes at the address `a`. -/
def write (m : Memory) (n a v : ℕ) : Memory := fun x =>
  if a ≤ x ∧ x < a + n then UInt8.ofNat (v / 256 ^ (x - a)) else m x

theorem write_of_not_mem (h : x < a ∨ a + n ≤ x) : m.write n a v x = m x := if_neg (by omega)

theorem write_of_mem {i : ℕ} (h : i < n) : m.write n a v (a + i) = UInt8.ofNat (v / 256 ^ i) := by
  rw [write, if_pos (by omega), Nat.add_sub_cancel_left]

/-- A word depends on its bytes only. -/
theorem read_congr (h : ∀ i < n, m (a + i) = m' (a' + i)) : m.read n a = m'.read n a' := by
  induction n generalizing a a' with
  | zero => rfl
  | succ n ih =>
    have h₀ := h 0 (Nat.succ_pos n)
    rw [Nat.add_zero, Nat.add_zero] at h₀
    rw [read, read, h₀, ih fun i hi => ?_]
    have := h (i + 1) (by omega)
    rwa [Nat.add_right_comm a, Nat.add_right_comm a', Nat.add_assoc, Nat.add_assoc]

theorem read_lt (m : Memory) (n a : ℕ) : m.read n a < 256 ^ n := by
  induction n generalizing a with
  | zero => exact Nat.one_pos
  | succ n ih =>
    have h₁ := ih (a + 1)
    have h₂ := (m a).toNat_lt
    rw [read, Nat.pow_succ]
    omega

/-- A word is made of two halves. -/
theorem read_add (m : Memory) (n k a : ℕ) :
    m.read (n + k) a = m.read n a + 256 ^ n * m.read k (a + n) := by
  induction n generalizing a with
  | zero => simp [read]
  | succ n ih =>
    rw [Nat.add_right_comm, read, ih, read, Nat.pow_succ', Nat.mul_add, Nat.mul_assoc,
      Nat.add_assoc a, Nat.add_comm 1, Nat.add_assoc]

/-- The bytes of a word. -/
theorem byte_of_read {i : ℕ} (h : i < n) : m (a + i) = UInt8.ofNat (m.read n a / 256 ^ i) := by
  induction n generalizing a i with
  | zero => exact absurd h (Nat.not_lt_zero i)
  | succ n ih =>
    have hlt := (m a).toNat_lt
    cases i with
    | zero =>
      refine UInt8.toNat_inj.1 ?_
      rw [UInt8.toNat_ofNat', read]
      simp only [Nat.add_zero, Nat.pow_zero, Nat.div_one]
      omega
    | succ i =>
      have := ih (a := a + 1) (i := i) (by omega)
      rw [← Nat.add_right_comm a, Nat.add_assoc a] at this
      rw [this, read, Nat.pow_succ', ← Nat.div_div_eq_div_mul]
      congr 2
      omega

/-- A written word is read back, truncated to its bytes. -/
theorem read_write (m : Memory) (n a v : ℕ) : (m.write n a v).read n a = v % 256 ^ n := by
  have key : ∀ k b w, (∀ i < k, m.write n a v (b + i) = UInt8.ofNat (w / 256 ^ i)) →
      (m.write n a v).read k b = w % 256 ^ k := by
    intro k
    induction k with
    | zero => intro b w _; simp [read, Nat.mod_one]
    | succ k ih =>
      intro b w h
      have h₀ := h 0 (Nat.succ_pos k)
      rw [Nat.pow_zero, Nat.div_one, Nat.add_zero] at h₀
      rw [read, h₀, UInt8.toNat_ofNat', ih (b + 1) (w / 256) fun i hi => ?_]
      · rw [show 2 ^ 8 = 256 from rfl, Nat.pow_succ', Nat.mod_mul (a := 256)]
      · rw [Nat.div_div_eq_div_mul, ← Nat.pow_succ', ← h (i + 1) (by omega)]
        congr 1
        omega
  exact key n a v fun i hi => write_of_mem hi

theorem read_write_of_lt (m : Memory) (n a : ℕ) (h : v < 256 ^ n) :
    (m.write n a v).read n a = v := by
  rw [read_write, Nat.mod_eq_of_lt h]

/-- A write keeps every word that shares no byte with it. -/
theorem read_write_of_disjoint (h : a' + n' ≤ a ∨ a + n ≤ a') :
    (m.write n a v).read n' a' = m.read n' a' := by
  exact read_congr fun i hi => write_of_not_mem (by omega)

/-- A word of zero bytes. -/
theorem read_eq_zero (h : ∀ i < n, m (a + i) = 0) : m.read n a = 0 := by
  induction n generalizing a with
  | zero => rfl
  | succ n ih =>
    have h₀ := h 0 (Nat.succ_pos n)
    rw [Nat.add_zero] at h₀
    rw [read, h₀, ih fun i hi => ?_]
    · rfl
    · rw [Nat.add_right_comm, Nat.add_assoc]
      exact h (i + 1) (by omega)

/-! ## Blocks -/

/-- The block of `n` bytes at the address `a` filled with the byte `b`. -/
def fill (m : Memory) (a n : ℕ) (b : UInt8) : Memory := fun x =>
  if a ≤ x ∧ x < a + n then b else m x

/-- The block of `n` bytes at the address `src` copied, all at once, to the address `dst`. -/
def copy (m : Memory) (dst src n : ℕ) : Memory := fun x =>
  if dst ≤ x ∧ x < dst + n then m (src + (x - dst)) else m x

theorem fill_of_mem {b : UInt8} (h₁ : a ≤ x) (h₂ : x < a + n) : m.fill a n b x = b :=
  if_pos ⟨h₁, h₂⟩

theorem fill_of_not_mem {b : UInt8} (h : x < a ∨ a + n ≤ x) : m.fill a n b x = m x :=
  if_neg (by omega)

/-- The bytes of a list stored one after the other from the address `a`. -/
def store (m : Memory) : ℕ → List UInt8 → Memory
  | _, [] => m
  | a, b :: bs => store (m.set a b) (a + 1) bs

theorem store_of_lt {bs : List UInt8} (h : x < a) : m.store a bs x = m x := by
  induction bs generalizing m a with
  | nil => rfl
  | cons b bs ih =>
    rw [store, ih (Nat.lt_succ_of_lt h)]
    exact set_of_ne m b (Nat.ne_of_lt h)

theorem store_of_le {bs : List UInt8} (h : a + bs.length ≤ x) : m.store a bs x = m x := by
  induction bs generalizing m a with
  | nil => rfl
  | cons b bs ih =>
    rw [List.length_cons] at h
    rw [store, ih (by omega)]
    exact set_of_ne m b (by omega)

theorem store_append (m : Memory) (a : ℕ) (bs cs : List UInt8) :
    m.store a (bs ++ cs) = (m.store a bs).store (a + bs.length) cs := by
  induction bs generalizing m a with
  | nil => rfl
  | cons b bs ih =>
    rw [List.cons_append, store, ih, store, List.length_cons, Nat.add_assoc a, Nat.add_comm 1]

theorem copy_of_mem {dst src : ℕ} (h₁ : dst ≤ x) (h₂ : x < dst + n) :
    m.copy dst src n x = m (src + (x - dst)) := if_pos ⟨h₁, h₂⟩

theorem copy_of_not_mem {dst src : ℕ} (h : x < dst ∨ dst + n ≤ x) :
    m.copy dst src n x = m x := if_neg (by omega)

/-! ## Two memories -/

/-- The memory `m` below the address `a`, and the memory `above` from there on. -/
def splice (m : Memory) (a : ℕ) (above : Memory) : Memory := fun x =>
  if x < a then m x else above x

theorem splice_of_lt {above : Memory} (h : x < a) : m.splice a above x = m x := if_pos h

theorem splice_of_le {above : Memory} (h : a ≤ x) : m.splice a above x = above x :=
  if_neg (Nat.not_lt.2 h)

theorem splice_write {above : Memory} {b : ℕ} (h : b + n ≤ a) :
    (m.splice a above).write n b v = (m.write n b v).splice a above := by
  funext x
  rw [splice, write, write, splice]
  split_ifs with h₁ h₂
  · rfl
  · omega
  · rfl
  · rfl

theorem splice_fill {above : Memory} {b : ℕ} {c : UInt8} (h : b + n ≤ a) :
    (m.splice a above).fill b n c = (m.fill b n c).splice a above := by
  funext x
  rw [splice, fill, fill, splice]
  split_ifs with h₁ h₂
  · rfl
  · omega
  · rfl
  · rfl

end Memory
