import Mathlib.Data.List.Basic
import Mathlib.Tactic.Common

/-!
# Chaining blocks

A message is compressed block by block: a chaining value goes from one block of `B` items
to the next, and what is left after the last whole block (`remainder`) waits for more.

* `absorb_append`, `remainder_append`: a message may come in parts, of which only what is
  left has to be kept;
* `collide_of_absorb_eq`: if two padded messages end with the same value, and their last
  blocks tell their lengths, then two of their blocks are compressed to the same.

Any type of items and of chaining values will do.
-/

namespace Chaining

variable {S α : Type*}

/-- The value after the first `n` blocks. -/
def blocks (B : ℕ) (compress : S → List α → S) : (n : ℕ) → S → List α → S
  | 0, s, _ => s
  | n + 1, s, l => blocks B compress n (compress s (l.take B)) (l.drop B)

/-- The value after all the whole blocks. -/
def absorb (B : ℕ) (compress : S → List α → S) (s : S) (l : List α) : S :=
  blocks B compress (l.length / B) s l

/-- What is left after the whole blocks. -/
def remainder (B : ℕ) (l : List α) : List α := l.drop (B * (l.length / B))

/-- The block with the index `n`. -/
def block (B : ℕ) (l : List α) (n : ℕ) : List α := (l.drop (B * n)).take B

/-- Two blocks of the messages, with the values that come to them, are compressed to the same
    without being the same. -/
structure Collide (B : ℕ) (compress : S → List α → S) (s : S) (l l' : List α) (n n' : ℕ) :
    Prop where
  left : B * (n + 1) ≤ l.length
  right : B * (n' + 1) ≤ l'.length
  ne : (blocks B compress n s l, block B l n) ≠ (blocks B compress n' s l', block B l' n')
  eq : compress (blocks B compress n s l) (block B l n) =
    compress (blocks B compress n' s l') (block B l' n')

variable {B n k : ℕ} {compress : S → List α → S} {s : S} {l l' : List α}

/-! ## Parts -/

theorem length_remainder (B : ℕ) (l : List α) : (remainder B l).length = l.length % B := by
  rw [remainder, List.length_drop, ← Nat.mod_eq_sub]

theorem blocks_add (n k : ℕ) (s : S) (l : List α) :
    blocks B compress (n + k) s l =
      blocks B compress k (blocks B compress n s l) (l.drop (B * n)) := by
  induction n generalizing s l with
  | zero => rw [Nat.zero_add, blocks, Nat.mul_zero, List.drop_zero]
  | succ n ih =>
    rw [Nat.add_right_comm, blocks, blocks, ih, List.drop_drop, Nat.mul_succ, Nat.add_comm B]

/-- The blocks only depend on their own items. -/
theorem blocks_append (h : B * n ≤ l.length) (l' : List α) :
    blocks B compress n s (l ++ l') = blocks B compress n s l := by
  induction n generalizing s l with
  | zero => rfl
  | succ n ih =>
    rw [Nat.mul_succ] at h
    rw [blocks, blocks, List.take_append_of_le_length (by omega),
      List.drop_append_of_le_length (by omega), ih (by rw [List.length_drop]; omega)]

/-- Less than a block is not absorbed. -/
theorem absorb_of_lt (h : l.length < B) : absorb B compress s l = s := by
  rw [absorb, Nat.div_eq_of_lt h, blocks]

theorem remainder_of_lt (h : l.length < B) : remainder B l = l := by
  rw [remainder, Nat.div_eq_of_lt h, Nat.mul_zero, List.drop_zero]

/-- A single block. -/
theorem absorb_block (hB : 0 < B) (h : l.length = B) :
    absorb B compress s l = compress s l := by
  rw [absorb, h, Nat.div_self hB, blocks, blocks, List.take_of_length_le (Nat.le_of_eq h)]

/-- What comes after whole blocks does not change them. -/
theorem absorb_append_of_dvd (hB : 0 < B) (h : B ∣ l.length) (l' : List α) :
    absorb B compress s (l ++ l') = absorb B compress (absorb B compress s l) l' := by
  obtain ⟨n, hn⟩ := h
  rw [absorb, absorb, absorb, List.length_append, hn, Nat.mul_div_cancel_left n hB,
    Nat.mul_add_div hB, blocks_add, List.drop_left' hn, blocks_append (Nat.le_of_eq hn.symm)]

theorem remainder_append_of_dvd (hB : 0 < B) (h : B ∣ l.length) (l' : List α) :
    remainder B (l ++ l') = remainder B l' := by
  obtain ⟨n, hn⟩ := h
  rw [remainder, remainder, List.length_append, hn, Nat.mul_add_div hB, Nat.mul_add, ← hn,
    List.drop_length_add_append]

/-- A message is its whole blocks and what is left. -/
theorem take_append_remainder (B : ℕ) (l : List α) :
    l.take (B * (l.length / B)) ++ remainder B l = l :=
  List.take_append_drop _ l

theorem dvd_length_take (B : ℕ) (l : List α) : B ∣ (l.take (B * (l.length / B))).length := by
  rw [List.length_take, Nat.min_eq_left (Nat.mul_div_le _ B)]
  exact Nat.dvd_mul_right B _

theorem absorb_take (hB : 0 < B) (s : S) (l : List α) :
    absorb B compress s (l.take (B * (l.length / B))) = absorb B compress s l := by
  have hlt : (remainder B l).length < B := by
    rw [length_remainder]
    exact Nat.mod_lt _ hB
  conv_rhs => rw [← take_append_remainder B l]
  rw [absorb_append_of_dvd hB (dvd_length_take B l), absorb_of_lt hlt]

/-- A message may be absorbed in two parts: what is left of the first goes in front of the
    second. -/
theorem absorb_append (hB : 0 < B) (s : S) (l l' : List α) :
    absorb B compress s (l ++ l') =
      absorb B compress (absorb B compress s l) (remainder B l ++ l') := by
  conv_lhs => rw [← take_append_remainder B l]
  rw [List.append_assoc, absorb_append_of_dvd hB (dvd_length_take B l), absorb_take hB]

theorem remainder_append (hB : 0 < B) (l l' : List α) :
    remainder B (l ++ l') = remainder B (remainder B l ++ l') := by
  conv_lhs => rw [← take_append_remainder B l]
  rw [List.append_assoc, remainder_append_of_dvd hB (dvd_length_take B l)]

/-! ## Collisions -/

theorem blocks_succ (n : ℕ) (s : S) (l : List α) :
    blocks B compress (n + 1) s l = compress (blocks B compress n s l) (block B l n) := by
  rw [blocks_add, blocks, blocks, block]

/-- Over as many blocks, the same value is reached from the same blocks only, unless two of them
    collide. -/
theorem take_eq_or_collide (hl : B * n ≤ l.length) (hl' : B * n ≤ l'.length)
    (h : blocks B compress n s l = blocks B compress n s l') :
    l.take (B * n) = l'.take (B * n) ∨ ∃ k, Collide B compress s l l' k k := by
  induction n with
  | zero => exact .inl (by rw [Nat.mul_zero, List.take_zero, List.take_zero])
  | succ n ih =>
    rw [blocks_succ, blocks_succ] at h
    by_cases heq : (blocks B compress n s l, block B l n) = (blocks B compress n s l', block B l' n)
    · obtain ⟨hvalue, hblock⟩ := Prod.mk.inj heq
      rw [Nat.mul_succ] at hl hl'
      refine (ih (by omega) (by omega) hvalue).imp_left fun htake => ?_
      rw [Nat.mul_succ, List.take_add, List.take_add, htake, ← block, ← block, hblock]
    · exact .inr ⟨n, hl, hl', heq, h⟩

/-- Two messages of whole blocks, the last of which tells how long they are: if they are not
    the same and their values are, two of their blocks collide. -/
theorem collide_of_absorb_eq (hB : 0 < B) (hl : B ∣ l.length) (hl' : B ∣ l'.length)
    (hnil : l ≠ []) (hnil' : l' ≠ []) (hne : l ≠ l')
    (hlast : l.drop (l.length - B) = l'.drop (l'.length - B) → l.length = l'.length)
    (h : absorb B compress s l = absorb B compress s l') :
    ∃ k k', Collide B compress s l l' k k' := by
  obtain ⟨n, hn⟩ := hl
  obtain ⟨n', hn'⟩ := hl'
  rw [absorb, absorb, hn, hn', Nat.mul_div_cancel_left n hB, Nat.mul_div_cancel_left n' hB] at h
  by_cases hlen : n = n'
  · -- As many blocks: they are compared one by one.
    subst hlen
    obtain htake | ⟨k, hk⟩ := take_eq_or_collide (Nat.le_of_eq hn.symm) (Nat.le_of_eq hn'.symm) h
    · rw [List.take_of_length_le (Nat.le_of_eq hn), List.take_of_length_le (Nat.le_of_eq hn')]
        at htake
      exact absurd htake hne
    · exact ⟨k, k, hk⟩
  · -- The last blocks are different.
    have hlast' : ∀ (l : List α) n, l.length = B * (n + 1) →
        block B l n = l.drop (l.length - B) := fun l n hn => by
      rw [block, hn, Nat.mul_succ, Nat.add_sub_cancel, List.take_of_length_le]
      rw [List.length_drop, hn, Nat.mul_succ]
      omega
    cases n with
    | zero => exact absurd (List.length_eq_zero_iff.1 hn) hnil
    | succ n =>
      cases n' with
      | zero => exact absurd (List.length_eq_zero_iff.1 hn') hnil'
      | succ n' =>
        rw [blocks_succ, blocks_succ] at h
        refine ⟨n, n', Nat.le_of_eq hn.symm, Nat.le_of_eq hn'.symm, fun heq => hlen ?_, h⟩
        have hblock := (Prod.mk.inj heq).2
        rw [hlast' l n hn, hlast' l' n' hn'] at hblock
        have hlength := hlast hblock
        rw [hn, hn'] at hlength
        exact Nat.eq_of_mul_eq_mul_left hB hlength

end Chaining
