import Cboot.Console.Print
import Cboot.Lib.Sine
import Cboot.Md5.Spec

/-!
# The body of the message digest

`body` of `md5.c`, which compresses one or more blocks. Its 64 uses of the macro `STEP` are a
table (`bodySteps`), whose rows name the four registers in the order of the source.

* `run_eq_stepOf`: a row does a step of the specification, with its four words in other
  registers from step to step;
* `t_eq_sineConstant`: the constants are the integer parts of `2 ^ 32 * |sin i|`;
* `body_exact`: the blocks are compressed one after the other, and the loop only ends because
  the size is a multiple of 64.
-/

namespace Cboot.Md5

open Chaining Fueled

/-! ## The macros -/

/-- The variables that a `STEP` is applied to. -/
inductive Reg
  | a | b | c | d
  deriving DecidableEq

/-- The value of a variable. -/
def Words.get (w : Words) : Reg → UInt32
  | .a => w.a
  | .b => w.b
  | .c => w.c
  | .d => w.d

/-- A variable is assigned. -/
def Words.set (w : Words) (r : Reg) (v : UInt32) : Words :=
  match r with
  | .a => { w with a := v }
  | .b => { w with b := v }
  | .c => { w with c := v }
  | .d => { w with d := v }

/-- The basic functions: the macros `F`, `G`, `H`, `H2` and `I`. -/
inductive Basic
  | f | g | h | h2 | i
  deriving DecidableEq

/-- The macros, as they are defined. -/
def Basic.eval : Basic → UInt32 → UInt32 → UInt32 → UInt32
  | f, x, y, z => z ^^^ (x &&& (y ^^^ z))
  | g, x, y, z => y ^^^ (z &&& (x ^^^ y))
  | h, x, y, z => (x ^^^ y) ^^^ z
  | h2, x, y, z => x ^^^ (y ^^^ z)
  | i, x, y, z => y ^^^ (x ||| ~~~z)

/-- The arguments of a `STEP`. -/
structure Step where
  f : Basic
  a : Reg
  b : Reg
  c : Reg
  d : Reg
  x : ℕ
  t : UInt32
  s : UInt32

/-- `STEP`, with the words `x` of the block. -/
def Step.run (x : ℕ → UInt32) (w : Words) (st : Step) : Words :=
  let a := w.get st.a + (st.f.eval (w.get st.b) (w.get st.c) (w.get st.d) + x st.x + st.t)
  let a := (a <<< st.s) ||| ((a &&& 0xffffffff) >>> (32 - st.s))
  let a := a + w.get st.b
  w.set st.a a

/-- The steps of a round of `body`, in order. -/
def bodySteps : List Step := [
  ⟨.f, .a, .b, .c, .d, 0, 0xd76aa478, 7⟩,
  ⟨.f, .d, .a, .b, .c, 1, 0xe8c7b756, 12⟩,
  ⟨.f, .c, .d, .a, .b, 2, 0x242070db, 17⟩,
  ⟨.f, .b, .c, .d, .a, 3, 0xc1bdceee, 22⟩,
  ⟨.f, .a, .b, .c, .d, 4, 0xf57c0faf, 7⟩,
  ⟨.f, .d, .a, .b, .c, 5, 0x4787c62a, 12⟩,
  ⟨.f, .c, .d, .a, .b, 6, 0xa8304613, 17⟩,
  ⟨.f, .b, .c, .d, .a, 7, 0xfd469501, 22⟩,
  ⟨.f, .a, .b, .c, .d, 8, 0x698098d8, 7⟩,
  ⟨.f, .d, .a, .b, .c, 9, 0x8b44f7af, 12⟩,
  ⟨.f, .c, .d, .a, .b, 10, 0xffff5bb1, 17⟩,
  ⟨.f, .b, .c, .d, .a, 11, 0x895cd7be, 22⟩,
  ⟨.f, .a, .b, .c, .d, 12, 0x6b901122, 7⟩,
  ⟨.f, .d, .a, .b, .c, 13, 0xfd987193, 12⟩,
  ⟨.f, .c, .d, .a, .b, 14, 0xa679438e, 17⟩,
  ⟨.f, .b, .c, .d, .a, 15, 0x49b40821, 22⟩,

  ⟨.g, .a, .b, .c, .d, 1, 0xf61e2562, 5⟩,
  ⟨.g, .d, .a, .b, .c, 6, 0xc040b340, 9⟩,
  ⟨.g, .c, .d, .a, .b, 11, 0x265e5a51, 14⟩,
  ⟨.g, .b, .c, .d, .a, 0, 0xe9b6c7aa, 20⟩,
  ⟨.g, .a, .b, .c, .d, 5, 0xd62f105d, 5⟩,
  ⟨.g, .d, .a, .b, .c, 10, 0x02441453, 9⟩,
  ⟨.g, .c, .d, .a, .b, 15, 0xd8a1e681, 14⟩,
  ⟨.g, .b, .c, .d, .a, 4, 0xe7d3fbc8, 20⟩,
  ⟨.g, .a, .b, .c, .d, 9, 0x21e1cde6, 5⟩,
  ⟨.g, .d, .a, .b, .c, 14, 0xc33707d6, 9⟩,
  ⟨.g, .c, .d, .a, .b, 3, 0xf4d50d87, 14⟩,
  ⟨.g, .b, .c, .d, .a, 8, 0x455a14ed, 20⟩,
  ⟨.g, .a, .b, .c, .d, 13, 0xa9e3e905, 5⟩,
  ⟨.g, .d, .a, .b, .c, 2, 0xfcefa3f8, 9⟩,
  ⟨.g, .c, .d, .a, .b, 7, 0x676f02d9, 14⟩,
  ⟨.g, .b, .c, .d, .a, 12, 0x8d2a4c8a, 20⟩,

  ⟨.h, .a, .b, .c, .d, 5, 0xfffa3942, 4⟩,
  ⟨.h2, .d, .a, .b, .c, 8, 0x8771f681, 11⟩,
  ⟨.h, .c, .d, .a, .b, 11, 0x6d9d6122, 16⟩,
  ⟨.h2, .b, .c, .d, .a, 14, 0xfde5380c, 23⟩,
  ⟨.h, .a, .b, .c, .d, 1, 0xa4beea44, 4⟩,
  ⟨.h2, .d, .a, .b, .c, 4, 0x4bdecfa9, 11⟩,
  ⟨.h, .c, .d, .a, .b, 7, 0xf6bb4b60, 16⟩,
  ⟨.h2, .b, .c, .d, .a, 10, 0xbebfbc70, 23⟩,
  ⟨.h, .a, .b, .c, .d, 13, 0x289b7ec6, 4⟩,
  ⟨.h2, .d, .a, .b, .c, 0, 0xeaa127fa, 11⟩,
  ⟨.h, .c, .d, .a, .b, 3, 0xd4ef3085, 16⟩,
  ⟨.h2, .b, .c, .d, .a, 6, 0x04881d05, 23⟩,
  ⟨.h, .a, .b, .c, .d, 9, 0xd9d4d039, 4⟩,
  ⟨.h2, .d, .a, .b, .c, 12, 0xe6db99e5, 11⟩,
  ⟨.h, .c, .d, .a, .b, 15, 0x1fa27cf8, 16⟩,
  ⟨.h2, .b, .c, .d, .a, 2, 0xc4ac5665, 23⟩,

  ⟨.i, .a, .b, .c, .d, 0, 0xf4292244, 6⟩,
  ⟨.i, .d, .a, .b, .c, 7, 0x432aff97, 10⟩,
  ⟨.i, .c, .d, .a, .b, 14, 0xab9423a7, 15⟩,
  ⟨.i, .b, .c, .d, .a, 5, 0xfc93a039, 21⟩,
  ⟨.i, .a, .b, .c, .d, 12, 0x655b59c3, 6⟩,
  ⟨.i, .d, .a, .b, .c, 3, 0x8f0ccc92, 10⟩,
  ⟨.i, .c, .d, .a, .b, 10, 0xffeff47d, 15⟩,
  ⟨.i, .b, .c, .d, .a, 1, 0x85845dd1, 21⟩,
  ⟨.i, .a, .b, .c, .d, 8, 0x6fa87e4f, 6⟩,
  ⟨.i, .d, .a, .b, .c, 15, 0xfe2ce6e0, 10⟩,
  ⟨.i, .c, .d, .a, .b, 6, 0xa3014314, 15⟩,
  ⟨.i, .b, .c, .d, .a, 13, 0x4e0811a1, 21⟩,
  ⟨.i, .a, .b, .c, .d, 4, 0xf7537e82, 6⟩,
  ⟨.i, .d, .a, .b, .c, 11, 0xbd3af235, 10⟩,
  ⟨.i, .c, .d, .a, .b, 2, 0x2ad7d2bb, 15⟩,
  ⟨.i, .b, .c, .d, .a, 9, 0xeb86d391, 21⟩]

/-! ## The function -/

/-- A word in memory. -/
def wordAt (m : Memory) (p : ℕ) : UInt32 := .ofNat (m.read 4 p)

/-- The words `a` to `d` of the context, which are at the offsets 8 to 20. -/
def loadWords (m : Memory) (ctx : ℕ) : Words :=
  ⟨wordAt m (ctx + 8), wordAt m (ctx + 12), wordAt m (ctx + 16), wordAt m (ctx + 20)⟩

/-- The words are stored in the context. -/
def storeWords (m : Memory) (ctx : ℕ) (w : Words) : Memory :=
  (((m.write 4 (ctx + 8) w.a.toNat).write 4 (ctx + 12) w.b.toNat).write 4 (ctx + 16)
    w.c.toNat).write 4 (ctx + 20) w.d.toNat

/-- A round of the loop of `body`, with the pointer to the block and the size left. -/
def bodyRound (m : Memory) : ℕ × Words × UInt64 → Fueled (ℕ × Words × UInt64 ⊕ ℕ × Words)
  | (ptr, w, size) =>
    let saved := w
    let w := bodySteps.foldl (Step.run fun n => wordAt m (ptr + n * 4)) w
    let w := ⟨w.a + saved.a, w.b + saved.b, w.c + saved.c, w.d + saved.d⟩
    let ptr := ptr + 64
    let size := size - 64
    if size ≠ 0 then pure (.inl (ptr, w, size)) else pure (.inr (ptr, w))

/-- `body`, with the pointer that it returns. -/
def body (m : Memory) (ctx data : ℕ) (size : UInt64) : Fueled (Memory × ℕ) := do
  let (ptr, w) ← .loop (bodyRound m) (data, loadWords m ctx, size)
  pure (storeWords m ctx w, ptr)

/-! ## Steps -/

section step

variable {x : ℕ → UInt32} {w : Words} {st : Step} {n : ℕ}

/-- The round that a basic function is for. -/
def Basic.round : Basic → ℕ
  | f => 0
  | g => 1
  | h => 2
  | h2 => 2
  | i => 3

/-- The functions without an AND-NOT are those of the specification. -/
theorem Basic.eval_eq (fn : Basic) (x y z : UInt32) :
    fn.eval x y z = roundFunction fn.round x y z := by
  cases fn with
  | f =>
    refine UInt32.toBitVec_inj.1 (BitVec.eq_of_getLsbD_eq fun k hk => ?_)
    simp only [eval, round, roundFunction, auxF, UInt32.toBitVec_xor, UInt32.toBitVec_and,
      UInt32.toBitVec_or, UInt32.toBitVec_not, BitVec.getLsbD_xor, BitVec.getLsbD_and,
      BitVec.getLsbD_or, BitVec.getLsbD_not, hk]
    cases x.toBitVec.getLsbD k <;> cases y.toBitVec.getLsbD k <;> cases z.toBitVec.getLsbD k <;> rfl
  | g =>
    refine UInt32.toBitVec_inj.1 (BitVec.eq_of_getLsbD_eq fun k hk => ?_)
    simp only [eval, round, roundFunction, auxG, UInt32.toBitVec_xor, UInt32.toBitVec_and,
      UInt32.toBitVec_or, UInt32.toBitVec_not, BitVec.getLsbD_xor, BitVec.getLsbD_and,
      BitVec.getLsbD_or, BitVec.getLsbD_not, hk]
    cases x.toBitVec.getLsbD k <;> cases y.toBitVec.getLsbD k <;> cases z.toBitVec.getLsbD k <;> rfl
  | h => rfl
  | h2 => exact (UInt32.xor_assoc x y z).symm
  | i => rfl

/-- The two shifts of `STEP` are a rotation. -/
theorem shifts_eq_rotateLeft (a : UInt32) {s : UInt32} (h₀ : 0 < s.toNat) (h₃₂ : s.toNat < 32) :
    (a <<< s) ||| ((a &&& 0xffffffff) >>> (32 - s)) = rotateLeft a s.toNat := by
  have hand : a &&& 0xffffffff = a := UInt32.toBitVec_inj.1 (BitVec.and_allOnes)
  have hle : s ≤ 32 := UInt32.le_iff_toNat_le.2 h₃₂.le
  have hsub : (32 - s).toNat = 32 - s.toNat := UInt32.toNat_sub_of_le _ _ hle
  refine UInt32.toBitVec_inj.1 ?_
  have hleft : (a <<< s).toBitVec = a.toBitVec <<< s.toNat := by
    rw [UInt32.toBitVec_shiftLeft, BitVec.shiftLeft_eq', BitVec.toNat_umod]
    exact congrArg _ (Nat.mod_eq_of_lt h₃₂)
  have hright : (a >>> (32 - s)).toBitVec = a.toBitVec >>> (32 - s.toNat) := by
    rw [UInt32.toBitVec_shiftRight, BitVec.ushiftRight_eq', BitVec.toNat_umod]
    refine congrArg _ ?_
    change (32 - s).toNat % 32 = _
    rw [hsub]
    omega
  rw [hand, rotateLeft, BitVec.rotateLeft_def, Nat.mod_eq_of_lt h₃₂, UInt32.toBitVec_or, hleft,
    hright]

/-- What `STEP` does to its first register. -/
theorem run_eq (x : ℕ → UInt32) (w : Words) (h₀ : 0 < st.s.toNat) (h₃₂ : st.s.toNat < 32) :
    st.run x w = w.set st.a (w.get st.b + rotateLeft (w.get st.a +
      roundFunction st.f.round (w.get st.b) (w.get st.c) (w.get st.d) + x st.x + st.t)
      st.s.toNat) := by
  simp only [Step.run, Basic.eval_eq, shifts_eq_rotateLeft _ h₀ h₃₂]
  rw [UInt32.add_comm (rotateLeft _ _), ← UInt32.add_assoc, ← UInt32.add_assoc]

/-- The registers of step `i`: they move on by one from step to step. -/
def regsAt (i : ℕ) : Reg × Reg × Reg × Reg :=
  match i % 4 with
  | 0 => (.a, .b, .c, .d)
  | 1 => (.d, .a, .b, .c)
  | 2 => (.c, .d, .a, .b)
  | _ => (.b, .c, .d, .a)

/-- The words of the specification in front of step `i`. -/
def inRoles (i : ℕ) (w : Words) : Words :=
  let (r₁, r₂, r₃, r₄) := regsAt i
  ⟨w.get r₁, w.get r₂, w.get r₃, w.get r₄⟩

/-- A row of the table that does step `i`. -/
def IsStep (i : ℕ) (st : Step) : Prop :=
  st.f.round = i / 16 ∧ (st.a, st.b, st.c, st.d) = regsAt i ∧ st.x = wordIndex i ∧
    st.s.toNat = rotation i ∧ 0 < st.s.toNat ∧ st.s.toNat < 32 ∧
    Sine.Encloses Sine.unit48 48 46 (2 ^ 32) (i + 1) st.t.toNat

instance (i : ℕ) (st : Step) : Decidable (IsStep i st) := inferInstanceAs (Decidable (_ ∧ _))

/-- All rows do, with the constant of the step. -/
theorem bodySteps_isStep : ∀ i : Fin bodySteps.length, IsStep i (bodySteps.get i) := by
  decide +kernel

theorem t_eq_sineConstant {i : ℕ} (h : IsStep i st) : st.t = sineConstant (i + 1) := by
  obtain ⟨-, -, -, -, -, -, hencloses⟩ := h
  rw [sineConstant, Sine.floor_abs_sin Sine.norm_scaled_unit48 Sine.norm_exp_sub_unit48 hencloses,
    UInt32.ofNat_toNat]

/-- A row does a step of the specification, in its registers. -/
theorem run_eq_stepOf {i : ℕ} (h : IsStep i st) :
    inRoles (i + 1) (st.run x w) = stepOf x i (inRoles i w) := by
  have ht := t_eq_sineConstant h
  obtain ⟨hround, hregs, hx, hs, h₀, h₃₂, -⟩ := h
  rw [run_eq x w h₀ h₃₂, hround, hx, hs, ht]
  have hcases : i % 4 = 0 ∨ i % 4 = 1 ∨ i % 4 = 2 ∨ i % 4 = 3 := by omega
  have hsucc : (i + 1) % 4 = (i % 4 + 1) % 4 := by omega
  rcases hcases with hi | hi | hi | hi <;>
  · rw [hi] at hsucc
    simp only [regsAt, hi, Prod.mk.injEq] at hregs
    simp [inRoles, regsAt, hi, hsucc, hregs, Words.get, Words.set, stepOf]

/-- The table does the steps of the specification, one after the other. -/
theorem foldl_bodySteps_take (x : ℕ → UInt32) (w : Words) (hn : n ≤ bodySteps.length) :
    inRoles n ((bodySteps.take n).foldl (Step.run x) w) = stepsOf x n w := by
  induction n with
  | zero => rfl
  | succ n ih =>
    rw [List.take_succ_eq_append_getElem hn, List.foldl_append, List.foldl_cons, List.foldl_nil,
      stepsOf, ← ih (Nat.le_of_succ_le hn)]
    exact run_eq_stepOf (bodySteps_isStep ⟨n, hn⟩)

theorem foldl_bodySteps (x : ℕ → UInt32) (w : Words) :
    bodySteps.foldl (Step.run x) w = stepsOf x 64 w := by
  have hlen : bodySteps.length = 64 := rfl
  have hroles : ∀ w, inRoles 64 w = w := fun _ => rfl
  have h := foldl_bodySteps_take x w hlen.ge
  rwa [← hlen, List.take_length, hlen, hroles] at h

/-- The compression of a block, by the table. -/
def tableCompress (w : Words) (block : List UInt8) : Words :=
  (bodySteps.foldl (Step.run (blockWord block)) w).add w

theorem compress_eq_tableCompress : compress = tableCompress := by
  funext w block
  rw [compress, tableCompress, foldl_bodySteps]

example : md5 [0x61, 0x62, 0x63] = [0x90, 0x01, 0x50, 0x98, 0x3c, 0xd2, 0x4f, 0xb0,
    0xd6, 0x96, 0x3f, 0x7d, 0x28, 0xe1, 0x7f, 0x72] := by
  rw [md5, compress_eq_tableCompress]
  decide +kernel

/-- The steps only take words with an index below 16. -/
theorem stepsOf_congr {x' : ℕ → UInt32} (h : ∀ k < 16, x k = x' k) (hn : n ≤ 64) (w : Words) :
    stepsOf x n w = stepsOf x' n w := by
  induction n with
  | zero => rfl
  | succ n ih =>
    have hindex : ∀ i < 64, wordIndex i < 16 := by decide
    rw [stepsOf, stepsOf, ih (Nat.le_of_succ_le hn), stepOf, stepOf, h _ (hindex n hn)]

end step

/-! ## Blocks -/

section blocks

variable {m m' : Memory} {ctx data ptr n k : ℕ} {w : Words} {size : UInt64}

theorem arrayBytes_congr {p p' : ℕ} (h : ∀ i < n, m (p + i) = m' (p' + i)) :
    arrayBytes m p n = arrayBytes m' p' n :=
  List.map_congr_left fun i hi => h i (List.mem_range.1 hi)

theorem arrayBytes_succ (m : Memory) (p n : ℕ) :
    arrayBytes m p (n + 1) = m p :: arrayBytes m (p + 1) n := by
  rw [arrayBytes, arrayBytes, List.range_succ_eq_map, List.map_cons, List.map_map]
  congr 1
  refine List.map_congr_left fun i _ => ?_
  rw [Function.comp_apply, Nat.succ_eq_add_one, Nat.add_assoc, Nat.add_comm 1]

theorem arrayBytes_add (m : Memory) (p n k : ℕ) :
    arrayBytes m p (n + k) = arrayBytes m p n ++ arrayBytes m (p + n) k := by
  induction n generalizing p with
  | zero => rw [Nat.zero_add, Nat.add_zero]; rfl
  | succ n ih =>
    rw [Nat.add_right_comm, arrayBytes_succ, ih, arrayBytes_succ, List.cons_append,
      Nat.add_assoc p, Nat.add_comm 1]

theorem take_arrayBytes (m : Memory) (p : ℕ) (h : k ≤ n) :
    (arrayBytes m p n).take k = arrayBytes m p k := by
  obtain ⟨j, rfl⟩ := Nat.exists_eq_add_of_le h
  rw [arrayBytes_add, List.take_left' (arrayBytes_length m p k)]

theorem drop_arrayBytes (m : Memory) (p : ℕ) (h : k ≤ n) :
    (arrayBytes m p n).drop k = arrayBytes m (p + k) (n - k) := by
  obtain ⟨j, rfl⟩ := Nat.exists_eq_add_of_le h
  rw [arrayBytes_add, List.drop_left' (arrayBytes_length m p k), Nat.add_sub_cancel_left]

/-- A word in memory is the number that its bytes hold. -/
theorem read_eq_fromBytes (m : Memory) (n p : ℕ) : m.read n p = fromBytes (arrayBytes m p n) := by
  induction n generalizing p with
  | zero => rfl
  | succ n ih => rw [Memory.read, ih, arrayBytes_succ, fromBytes]

/-- `SET` and `GET` take the words of the block. -/
theorem wordAt_eq_blockWord (m : Memory) (ptr : ℕ) (hk : k < 16) :
    wordAt m (ptr + k * 4) = blockWord (arrayBytes m ptr 64) k := by
  rw [wordAt, blockWord, drop_arrayBytes m ptr (by omega), take_arrayBytes _ _ (by omega),
    read_eq_fromBytes, Nat.mul_comm]

/-- A round compresses a block. -/
theorem bodyRound_eq (m : Memory) (ptr : ℕ) (w : Words) (size : UInt64) :
    bodyRound m (ptr, w, size) = if size - 64 ≠ 0 then
      pure (.inl (ptr + 64, compress w (arrayBytes m ptr 64), size - 64))
    else pure (.inr (ptr + 64, compress w (arrayBytes m ptr 64))) := by
  have hsteps : bodySteps.foldl (Step.run fun n => wordAt m (ptr + n * 4)) w =
      stepsOf (blockWord (arrayBytes m ptr 64)) 64 w := by
    rw [foldl_bodySteps]
    exact stepsOf_congr (fun k hk => wordAt_eq_blockWord m ptr hk) le_rfl w
  rw [bodyRound, hsteps]
  rfl

/-- The loop compresses a block, and one more for each that is in what is left of the size. -/
theorem bodyLoop_returns (m : Memory) (ptr : ℕ) (w : Words) (hn : (size - 64).toNat = 64 * n) :
    (loop (bodyRound m) (ptr, w, size)).Returns
      (ptr + 64 * (n + 1), blocks 64 compress (n + 1) w (arrayBytes m ptr (64 * (n + 1)))) := by
  induction n generalizing ptr w size with
  | zero =>
    have hz : size - 64 = 0 := UInt64.toNat_inj.1 hn
    refine Returns.loop_done ?_
    rw [bodyRound_eq, if_neg (not_not_intro hz)]
    exact returns_pure_iff.2 (by rw [blocks, blocks, take_arrayBytes m ptr (by decide)])
  | succ n ih =>
    have hne : size - 64 ≠ 0 := fun hz => by
      rw [hz] at hn
      exact absurd hn (by simp)
    have hround : (bodyRound m (ptr, w, size)).Returns
        (.inl (ptr + 64, compress w (arrayBytes m ptr 64), size - 64)) := by
      rw [bodyRound_eq, if_pos hne]
      exact returns_pure_iff.2 rfl
    have hle : (64 : UInt64) ≤ size - 64 := UInt64.le_iff_toNat_le.2 (by change 64 ≤ _; omega)
    have hsub : (size - 64 - 64).toNat = 64 * n := by
      rw [UInt64.toNat_sub_of_le _ _ hle]
      change (size - 64).toNat - 64 = _
      omega
    have hrest := ih (ptr + 64) (compress w (arrayBytes m ptr 64)) hsub
    have hlen : 64 * (n + 1 + 1) - 64 = 64 * (n + 1) := by omega
    have hend : ptr + 64 * (n + 1 + 1) = ptr + 64 + 64 * (n + 1) := by omega
    rw [blocks, take_arrayBytes m ptr (by omega), drop_arrayBytes m ptr (by omega), hlen, hend]
    exact hround.loop_iff.2 hrest

/-- The number of rounds that the loop makes of a size: at zero, it begins with the greatest. -/
def rounds (size : UInt64) : ℕ :=
  (size - 64).toNat / 64 + 1

theorem rounds_of_ne_zero (hdvd : 64 ∣ size.toNat) (hne : size ≠ 0) :
    64 * rounds size = size.toNat := by
  have hpos : size.toNat ≠ 0 := fun h => hne (UInt64.toNat_inj.1 h)
  have hsub : (size - 64).toNat = (2 ^ 64 - 64 + size.toNat) % 2 ^ 64 := UInt64.toNat_sub _ _
  have hlt := size.toNat_lt
  rw [rounds]
  omega

/-- The size after a round is a multiple of 64 if and only if it was one before. -/
theorem dvd_sub_iff (size : UInt64) : 64 ∣ (size - 64).toNat ↔ 64 ∣ size.toNat := by
  have hsub : (size - 64).toNat = (2 ^ 64 - 64 + size.toNat) % 2 ^ 64 := UInt64.toNat_sub _ _
  omega

theorem body_returns_rounds (m : Memory) (ctx data : ℕ) (hdvd : 64 ∣ size.toNat) :
    (body m ctx data size).Returns (storeWords m ctx
      (blocks 64 compress (rounds size) (loadWords m ctx) (arrayBytes m data (64 * rounds size))),
      data + 64 * rounds size) := by
  obtain ⟨n, hn⟩ := (dvd_sub_iff size).2 hdvd
  have hrounds : rounds size = n + 1 := by rw [rounds, hn, Nat.mul_div_cancel_left n (by decide)]
  rw [body, (bodyLoop_returns m data (loadWords m ctx) hn).bind_iff, returns_pure_iff, hrounds]

/-- The whole blocks at `data` are absorbed into the words of the context. -/
theorem body_returns (m : Memory) (ctx data : ℕ) (hdvd : 64 ∣ size.toNat) (hne : size ≠ 0) :
    (body m ctx data size).Returns (storeWords m ctx
      (absorb 64 compress (loadWords m ctx) (arrayBytes m data size.toNat)),
      data + size.toNat) := by
  have hsize := rounds_of_ne_zero hdvd hne
  have hbody := body_returns_rounds m ctx data hdvd
  rw [hsize] at hbody
  rwa [absorb, arrayBytes_length, ← hsize, Nat.mul_div_cancel_left _ (by decide), hsize]

/-- A block that is in the context, or anywhere. -/
theorem body_block (m : Memory) (ctx data : ℕ) :
    (body m ctx data 64).Returns (storeWords m ctx
      (absorb 64 compress (loadWords m ctx) (arrayBytes m data 64)), data + 64) :=
  body_returns m ctx data (by decide) (by decide)

/-- At a size that is not a multiple of 64, the loop passes zero by, and goes on for ever. -/
theorem body_diverges (m : Memory) (ctx data : ℕ) (hdvd : ¬64 ∣ size.toNat) :
    ∀ r, ¬(body m ctx data size).Returns r := by
  intro r h
  obtain ⟨r', hloop, -⟩ := returns_bind_iff.1 h
  refine diverges_iff.1 (diverges_loop (I := fun s => ¬64 ∣ s.2.2.toNat) hdvd ?_) r' hloop
  rintro ⟨ptr, w, size⟩ hdvd
  have hne : size - 64 ≠ 0 := fun hz => by
    rw [← dvd_sub_iff, hz] at hdvd
    exact hdvd (Nat.dvd_zero 64)
  refine ⟨(ptr + 64, compress w (arrayBytes m ptr 64), size - 64), ?_,
    (dvd_sub_iff size).not.2 hdvd⟩
  rw [bodyRound_eq, if_pos hne]
  exact returns_pure_iff.2 rfl

/-- What `body` does at any size: it ends for the multiples of 64 only, and there it compresses
    block after block, as the specification does with the constants of the sine. Nothing but
    the four words of the context changes. -/
theorem body_exact (m : Memory) (ctx data : ℕ) (size : UInt64) (r : Memory × ℕ) :
    (body m ctx data size).Returns r ↔ 64 ∣ size.toNat ∧
      r = (storeWords m ctx (blocks 64 compress (rounds size) (loadWords m ctx)
        (arrayBytes m data (64 * rounds size))), data + 64 * rounds size) := by
  constructor
  · intro h
    have hdvd : 64 ∣ size.toNat := by_contra fun hdvd => body_diverges m ctx data hdvd r h
    exact ⟨hdvd, h.unique (body_returns_rounds m ctx data hdvd)⟩
  · rintro ⟨hdvd, rfl⟩
    exact body_returns_rounds m ctx data hdvd

end blocks

end Cboot.Md5
