import Cboot.Lib.Chaining
import Mathlib.Algebra.Order.Floor.Semiring
import Mathlib.Analysis.Complex.Trigonometric

/-!
# The message digest

MD5 as RFC 1321 defines it, which `md5.c` implements: this is what the code is compared with,
and not how it computes.

* A message is padded to whole blocks of 64 bytes, the last of which ends with the length of
  the message in bits (`padding`);
* every block is compressed in 64 steps, with constants that are the integer parts of
  `2 ^ 32 * |sin i|` (`compress`);
* the digest is the last chaining value (`md5`).
-/

namespace Cboot.Md5

open Chaining

/-- The four words that go from block to block. -/
@[ext] structure Words where
  a : UInt32
  b : UInt32
  c : UInt32
  d : UInt32
  deriving DecidableEq

/-! ## Bytes -/

/-- The number that bytes hold, the least significant first. -/
def fromBytes : List UInt8 → ℕ
  | [] => 0
  | b :: bytes => b.toNat + 256 * fromBytes bytes

/-- The `n` low-order bytes of a number, the least significant first. -/
def toBytes (n v : ℕ) : List UInt8 := (List.range n).map fun i => .ofNat (v / 256 ^ i)

/-- The bytes of the four words. -/
def Words.bytes (w : Words) : List UInt8 :=
  toBytes 4 w.a.toNat ++ toBytes 4 w.b.toNat ++ toBytes 4 w.c.toNat ++ toBytes 4 w.d.toNat

/-- The word of a block with the index `k`. -/
def blockWord (block : List UInt8) (k : ℕ) : UInt32 :=
  .ofNat (fromBytes ((block.drop (4 * k)).take 4))

/-- What is appended to a message of `n` bytes: the bit one, zeros up to 8 bytes in front of
    the end of a block, and the low-order 64 bits of the number of bits. -/
def padding (n : ℕ) : List UInt8 :=
  0x80 :: List.replicate ((119 - n % 64) % 64) 0 ++ toBytes 8 (8 * n)

/-! ## Steps -/

/-- The bits of `y` where `x` has ones, and those of `z` elsewhere. -/
def auxF (x y z : UInt32) : UInt32 := (x &&& y) ||| (~~~x &&& z)

/-- The bits of `x` where `z` has ones, and those of `y` elsewhere. -/
def auxG (x y z : UInt32) : UInt32 := (x &&& z) ||| (y &&& ~~~z)

/-- The parity of the bits. -/
def auxH (x y z : UInt32) : UInt32 := x ^^^ y ^^^ z

/-- The function of the last round. -/
def auxI (x y z : UInt32) : UInt32 := y ^^^ (x ||| ~~~z)

/-- The function of the round, of 16 steps each. -/
def roundFunction : (round : ℕ) → UInt32 → UInt32 → UInt32 → UInt32
  | 0 => auxF
  | 1 => auxG
  | 2 => auxH
  | _ => auxI

/-- The index of the word that step `i` takes. -/
def wordIndex (i : ℕ) : ℕ :=
  match i / 16 with
  | 0 => i
  | 1 => (5 * i + 1) % 16
  | 2 => (3 * i + 5) % 16
  | _ => 7 * i % 16

/-- How far step `i` rotates. -/
def rotation (i : ℕ) : ℕ :=
  let rotations := match i / 16 with
    | 0 => [7, 12, 17, 22]
    | 1 => [5, 9, 14, 20]
    | 2 => [4, 11, 16, 23]
    | _ => [6, 10, 15, 21]
  rotations.getD (i % 4) 0

/-- The constant of step `i`, counted from one: `i` is in radians. -/
noncomputable def sineConstant (i : ℕ) : UInt32 := .ofNat ⌊((2 ^ 32 : ℕ) : ℝ) * |Real.sin i|⌋₊

/-- The rotation of a word to the left by `s` bits. -/
def rotateLeft (x : UInt32) (s : ℕ) : UInt32 := ⟨x.toBitVec.rotateLeft s⟩

/-- Step `i`, counted from zero, with the words `x` of the block. The words of the value move
    on by one. -/
noncomputable def stepOf (x : ℕ → UInt32) (i : ℕ) (w : Words) : Words where
  a := w.d
  b := w.b + rotateLeft
    (w.a + roundFunction (i / 16) w.b w.c w.d + x (wordIndex i) + sineConstant (i + 1)) (rotation i)
  c := w.b
  d := w.c

/-- The first `n` steps. -/
noncomputable def stepsOf (x : ℕ → UInt32) : (n : ℕ) → Words → Words
  | 0, w => w
  | n + 1, w => stepOf x n (stepsOf x n w)

/-- The sums of the words, modulo `2 ^ 32`. -/
def Words.add (v w : Words) : Words := ⟨v.a + w.a, v.b + w.b, v.c + w.c, v.d + w.d⟩

/-- The compression of a block. -/
noncomputable def compress (w : Words) (block : List UInt8) : Words :=
  (stepsOf (blockWord block) 64 w).add w

/-! ## Digests -/

/-- The words in front of the first block. -/
def initialWords : Words := ⟨0x67452301, 0xefcdab89, 0x98badcfe, 0x10325476⟩

/-- The digest of a message. -/
noncomputable def md5 (message : List UInt8) : List UInt8 :=
  (absorb 64 compress initialWords (message ++ padding message.length)).bytes

section bytes

variable {n v : ℕ}

theorem length_toBytes (n v : ℕ) : (toBytes n v).length = n := by
  rw [toBytes, List.length_map, List.length_range]

theorem toBytes_succ (n v : ℕ) : toBytes (n + 1) v = .ofNat v :: toBytes n (v / 256) := by
  rw [toBytes, toBytes, List.range_succ_eq_map, List.map_cons, List.map_map, Nat.pow_zero,
    Nat.div_one]
  congr 1
  refine List.map_congr_left fun i _ => ?_
  rw [Function.comp_apply, Nat.pow_succ', Nat.div_div_eq_div_mul]

/-- A number is read back from its bytes, truncated to them. -/
theorem fromBytes_toBytes (n v : ℕ) : fromBytes (toBytes n v) = v % 256 ^ n := by
  induction n generalizing v with
  | zero => rw [Nat.pow_zero, Nat.mod_one]; rfl
  | succ n ih =>
    have hmod : v % 256 ^ (n + 1) = v % 2 ^ 8 + 256 * (v / 256 % 256 ^ n) := by
      rw [Nat.pow_succ', Nat.mod_mul]
      rfl
    rw [toBytes_succ, fromBytes, ih, UInt8.toNat_ofNat', hmod]

theorem toBytes_mod (n v : ℕ) : toBytes n (v % 256 ^ n) = toBytes n v := by
  induction n generalizing v with
  | zero => rfl
  | succ n ih =>
    rw [toBytes_succ, toBytes_succ, ← ih (v / 256), Nat.pow_succ']
    congr 1
    · refine UInt8.toNat_inj.1 ?_
      rw [UInt8.toNat_ofNat', UInt8.toNat_ofNat']
      exact Nat.mod_mul_right_mod v 256 _
    · rw [Nat.mod_mul_right_div_self]

theorem toBytes_add (n k v : ℕ) : toBytes (n + k) v = toBytes n v ++ toBytes k (v / 256 ^ n) := by
  induction n generalizing v with
  | zero => rw [Nat.zero_add, Nat.pow_zero, Nat.div_one]; rfl
  | succ n ih =>
    rw [Nat.add_right_comm, toBytes_succ, ih, toBytes_succ, List.cons_append, Nat.pow_succ',
      Nat.div_div_eq_div_mul]

/-- The padding fills up to whole blocks. -/
theorem length_padding (n : ℕ) : (padding n).length = (119 - n % 64) % 64 + 9 := by
  rw [padding, List.length_append, List.length_cons, List.length_replicate, length_toBytes]

theorem dvd_length_padded (message : List UInt8) :
    64 ∣ (message ++ padding message.length).length := by
  rw [List.length_append, length_padding]
  omega

theorem toBytes_inj {v v' : UInt32} : toBytes 4 v.toNat = toBytes 4 v'.toNat ↔ v = v' := by
  refine ⟨fun h => ?_, fun h => by rw [h]⟩
  have h := congrArg fromBytes h
  rw [fromBytes_toBytes, fromBytes_toBytes] at h
  exact UInt32.toNat_inj.1 ((Nat.mod_eq_of_lt v.toNat_lt).symm.trans
    (h.trans (Nat.mod_eq_of_lt v'.toNat_lt)))

/-- The words are told by their bytes. -/
theorem Words.bytes_inj {v w : Words} : v.bytes = w.bytes ↔ v = w := by
  refine ⟨fun h => ?_, fun h => by rw [h]⟩
  rw [Words.bytes, Words.bytes] at h
  obtain ⟨h, hd⟩ := List.append_inj' h (by rw [length_toBytes, length_toBytes])
  obtain ⟨h, hc⟩ := List.append_inj' h (by rw [length_toBytes, length_toBytes])
  obtain ⟨ha, hb⟩ := List.append_inj' h (by rw [length_toBytes, length_toBytes])
  exact Words.ext (toBytes_inj.1 ha) (toBytes_inj.1 hb) (toBytes_inj.1 hc) (toBytes_inj.1 hd)

end bytes

end Cboot.Md5
