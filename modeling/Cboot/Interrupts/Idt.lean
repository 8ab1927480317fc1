import Cboot.Lib.Bitfield
import Cboot.Lib.Memory
import Mathlib.Data.List.Induction
import Mathlib.Tactic.IntervalCases

/-!
# The interrupt descriptor table

The table of `interrupts.c`, and the gates that the processor finds in it.

* `newOptions_eq`: all sixteen bits of the options are assigned, so that the variable which
  they are assembled in need not be initialised;
* `gateAt_runInterrupts`: after any calls of `set_interrupt`, in any order, an entry holds an
  interrupt gate for the address of the last call for it. Entries without a call are kept, and
  so is everything outside the table.
-/

namespace Cboot

open Bitfield

/-! ## Descriptors -/

namespace IDTOptions

/-! The options are their raw value. -/

variable (options v : ℕ)

/-- The stack of the interrupt, none if it is zero. -/
def setIstIndex : ℕ := setField options 0 3 v

/-- Reserved bits, to be zero. -/
def setReserved1 : ℕ := setField options 3 5 v

/-- The type of the gate: that of an interrupt, or of a trap. -/
def setGatetype : ℕ := setField options 8 1 v

/-- Reserved bits, to be ones. -/
def setReserved2 : ℕ := setField options 9 3 v

/-- A reserved bit, to be zero. -/
def setReserved3 : ℕ := setField options 12 1 v

/-- The privilege that the interrupt may be called with. -/
def setPrivilege : ℕ := setField options 13 2 v

/-- Whether there is a handler. -/
def setPresent : ℕ := setField options 15 1 v

end IDTOptions

open IDTOptions

/-- `new_options`, with what its variable happens to hold at first. -/
def newOptions (options : ℕ) : ℕ :=
  let options := setIstIndex options 0
  let options := setGatetype options 0
  let options := setReserved1 options 0
  let options := setReserved2 options (2 ^ 32 - 1)
  let options := setReserved3 options 0
  let options := setPrivilege options 0
  setPresent options 1

/-- `set_interrupt`, with the table at `idt`. -/
def setInterrupt (m : Memory) (idt garbage num : ℕ) (addr : UInt64) : Memory :=
  let entry := idt + 16 * num
  let m := m.write 2 (entry + 2) 0x8
  let m := m.write 2 entry addr.toUInt16.toNat
  let m := m.write 2 (entry + 6) (addr >>> 16).toUInt16.toNat
  let m := m.write 4 (entry + 8) (addr >>> 32).toUInt32.toNat
  let m := m.write 2 (entry + 4) (newOptions garbage)
  m.write 4 (entry + 12) 0

/-! ## Gates -/

/-- The fields of a gate. -/
structure Gate where
  offset : ℕ
  selector : ℕ
  ist : ℕ
  type : ℕ
  dpl : ℕ
  present : ℕ
  deriving DecidableEq

/-- The gate at `p`, as the processor reads it from the 16 bytes there. The bit 44 is part of
    the type: it is set in the descriptors that are not for the system. -/
def gateAt (m : Memory) (p : ℕ) : Gate where
  offset := getField (m.read 8 p) 0 16 + 2 ^ 16 * getField (m.read 8 p) 48 16 +
    2 ^ 32 * getField (m.read 8 (p + 8)) 0 32
  selector := getField (m.read 8 p) 16 16
  ist := getField (m.read 8 p) 32 3
  type := getField (m.read 8 p) 40 5
  dpl := getField (m.read 8 p) 45 2
  present := getField (m.read 8 p) 47 1

/-- The gate for a handler: an interrupt gate of the kernel, on the same stack, through the
    code descriptor of `start.asm`. -/
def interruptGate (addr : UInt64) : Gate where
  offset := addr.toNat
  selector := 0x8
  ist := 0
  type := 0xE
  dpl := 0
  present := 1

section gate

variable {m m' : Memory} {idt garbage num p : ℕ} {addr : UInt64}

/-- A gate depends on its bytes only. -/
theorem gateAt_congr {p' : ℕ} (h : ∀ i < 16, m (p + i) = m' (p' + i)) :
    gateAt m p = gateAt m' p' := by
  have hlow : m.read 8 p = m'.read 8 p' := Memory.read_congr fun i hi => h i (by omega)
  have hhigh : m.read 8 (p + 8) = m'.read 8 (p' + 8) := Memory.read_congr fun i hi => by
    rw [Nat.add_assoc, Nat.add_assoc]
    exact h (8 + i) (by omega)
  rw [gateAt, gateAt, hlow, hhigh]

/-- Nothing is left of what the variable held. -/
theorem newOptions_eq {options : ℕ} (h : options < 2 ^ 16) : newOptions options = 0x8E00 := by
  refine Nat.eq_of_testBit_eq fun i => ?_
  simp only [newOptions, setIstIndex, setGatetype, setReserved1, setReserved2, setReserved3,
    setPrivilege, setPresent, testBit_setField]
  by_cases hi : i < 16
  · -- Each bit of the word is in one of the fields.
    interval_cases i <;> rfl
  · have hlt : 2 ^ 16 ≤ 2 ^ i := Nat.pow_le_pow_right (by decide) (Nat.not_lt.1 hi)
    rw [if_neg (by omega), if_neg (by omega), if_neg (by omega), if_neg (by omega),
      if_neg (by omega), if_neg (by omega), if_neg (by omega),
      Nat.testBit_lt_two_pow (h.trans_le hlt),
      Nat.testBit_lt_two_pow (lt_of_lt_of_le (by decide) hlt)]

/-- Only the bytes of the entry are stored to. -/
theorem setInterrupt_of_not_mem {x : ℕ} (h : x < idt + 16 * num ∨ idt + 16 * num + 16 ≤ x) :
    setInterrupt m idt garbage num addr x = m x := by
  rw [setInterrupt, Memory.write_of_not_mem (by omega), Memory.write_of_not_mem (by omega),
    Memory.write_of_not_mem (by omega), Memory.write_of_not_mem (by omega),
    Memory.write_of_not_mem (by omega), Memory.write_of_not_mem (by omega)]

/-- The words of an entry, the last store to each of which is still there in the end. -/
theorem setInterrupt_words (m : Memory) (idt num : ℕ) (addr : UInt64) (h : garbage < 2 ^ 16) :
    let m := setInterrupt m idt garbage num addr
    let entry := idt + 16 * num
    m.read 2 entry = addr.toNat % 2 ^ 16 ∧ m.read 2 (entry + 2) = 0x8 ∧
      m.read 2 (entry + 4) = 0x8E00 ∧ m.read 2 (entry + 6) = addr.toNat / 2 ^ 16 % 2 ^ 16 ∧
      m.read 4 (entry + 8) = addr.toNat / 2 ^ 32 := by
  have hlow : addr.toUInt16.toNat = addr.toNat % 2 ^ 16 := rfl
  have hmid : (addr >>> 16).toUInt16.toNat = addr.toNat / 2 ^ 16 % 2 ^ 16 := by
    rw [UInt64.toNat_toUInt16, UInt64.toNat_shiftRight, Nat.shiftRight_eq_div_pow]
    rfl
  have hhigh : (addr >>> 32).toUInt32.toNat = addr.toNat / 2 ^ 32 := by
    have hlt := addr.toNat_lt
    rw [UInt64.toNat_toUInt32, UInt64.toNat_shiftRight, Nat.shiftRight_eq_div_pow]
    change addr.toNat / 2 ^ 32 % 2 ^ 32 = _
    omega
  have hlt := addr.toNat_lt
  simp only [setInterrupt, newOptions_eq h]
  refine ⟨?_, ?_, ?_, ?_, ?_⟩
  · rw [Memory.read_write_of_disjoint (by omega), Memory.read_write_of_disjoint (by omega),
      Memory.read_write_of_disjoint (by omega), Memory.read_write_of_disjoint (by omega),
      Memory.read_write, hlow]
    exact Nat.mod_mod _ (2 ^ 16)
  · rw [Memory.read_write_of_disjoint (by omega), Memory.read_write_of_disjoint (by omega),
      Memory.read_write_of_disjoint (by omega), Memory.read_write_of_disjoint (by omega),
      Memory.read_write_of_disjoint (by omega), Memory.read_write_of_lt _ _ _ (by decide)]
  · rw [Memory.read_write_of_disjoint (by omega), Memory.read_write_of_lt _ _ _ (by decide)]
  · rw [Memory.read_write_of_disjoint (by omega), Memory.read_write_of_disjoint (by omega),
      Memory.read_write_of_disjoint (by omega), Memory.read_write, hmid]
    exact Nat.mod_mod _ (2 ^ 16)
  · rw [Memory.read_write_of_disjoint (by omega), Memory.read_write_of_disjoint (by omega),
      Memory.read_write_of_lt _ _ _ (by omega), hhigh]

/-- A word of 8 bytes is made of four of 2. -/
theorem read_words (m : Memory) (p : ℕ) : m.read 8 p = m.read 2 p +
    2 ^ 16 * (m.read 2 (p + 2) + 2 ^ 16 * (m.read 2 (p + 4) + 2 ^ 16 * m.read 2 (p + 6))) := by
  have h₂ : m.read 8 p = m.read 2 p + 2 ^ 16 * m.read 6 (p + 2) := m.read_add 2 6 p
  have h₄ : m.read 6 (p + 2) = m.read 2 (p + 2) + 2 ^ 16 * m.read 4 (p + 4) :=
    m.read_add 2 4 (p + 2)
  have h₆ : m.read 4 (p + 4) = m.read 2 (p + 4) + 2 ^ 16 * m.read 2 (p + 6) :=
    m.read_add 2 2 (p + 4)
  rw [h₂, h₄, h₆]

/-- The processor finds the address in the entry, put together from its three parts. -/
theorem gateAt_setInterrupt (m : Memory) (idt num : ℕ) (addr : UInt64) (h : garbage < 2 ^ 16) :
    gateAt (setInterrupt m idt garbage num addr) (idt + 16 * num) = interruptGate addr := by
  obtain ⟨h₀, h₂, h₄, h₆, h₈⟩ := setInterrupt_words m idt num addr h
  have hlt := addr.toNat_lt
  have hlow : (setInterrupt m idt garbage num addr).read 8 (idt + 16 * num) =
      addr.toNat % 2 ^ 16 + 2 ^ 16 * (0x8 + 2 ^ 16 * (0x8E00 + 2 ^ 16 *
        (addr.toNat / 2 ^ 16 % 2 ^ 16))) := by
    rw [read_words, h₀, h₂, h₄, h₆]
  have hhigh := Memory.read_add (setInterrupt m idt garbage num addr) 4 4 (idt + 16 * num + 8)
  rw [h₈] at hhigh
  simp only [gateAt, interruptGate, hlow, hhigh, getField, Gate.mk.injEq]
  omega

/-! ## Runs -/

/-- A call of `set_interrupt`, with what the stack holds where it assembles the options. -/
structure InterruptCall where
  garbage : UInt16
  num : ℕ
  addr : UInt64

/-- The memory after calls for the table at `idt`. -/
def runInterrupts (m : Memory) (idt : ℕ) (calls : List InterruptCall) : Memory :=
  calls.foldl (fun m c => setInterrupt m idt c.garbage.toNat c.num c.addr) m

/-- The last call for an entry. -/
def lastCall (calls : List InterruptCall) (num : ℕ) : Option InterruptCall :=
  calls.reverse.find? fun c => c.num = num

theorem lastCall_append (calls : List InterruptCall) (c : InterruptCall) :
    lastCall (calls ++ [c]) num = if c.num = num then some c else lastCall calls num := by
  rw [lastCall, List.reverse_append, List.reverse_singleton, List.singleton_append,
    List.find?_cons]
  by_cases h : c.num = num
  · rw [decide_eq_true h, if_pos h]
  · rw [decide_eq_false h, if_neg h]
    rfl

theorem runInterrupts_append (m : Memory) (idt : ℕ) (calls : List InterruptCall)
    (c : InterruptCall) : runInterrupts m idt (calls ++ [c]) =
      setInterrupt (runInterrupts m idt calls) idt c.garbage.toNat c.num c.addr :=
  List.foldl_append

/-- An entry holds the gate of the last call for it, or what it held before. -/
theorem gateAt_runInterrupts (m : Memory) (idt : ℕ) (calls : List InterruptCall) (num : ℕ) :
    gateAt (runInterrupts m idt calls) (idt + 16 * num) =
      match lastCall calls num with
      | some c => interruptGate c.addr
      | none => gateAt m (idt + 16 * num) := by
  induction calls using List.reverseRecOn with
  | nil => rfl
  | append_singleton calls c ih =>
    rw [runInterrupts_append, lastCall_append]
    by_cases h : c.num = num
    · subst h
      rw [if_pos rfl]
      exact gateAt_setInterrupt _ _ _ _ c.garbage.toNat_lt
    · rw [if_neg h, ← ih]
      exact gateAt_congr fun i hi => setInterrupt_of_not_mem (by omega)

/-- Nothing but the entries that there are calls for is stored to. -/
theorem runInterrupts_of_not_mem {calls : List InterruptCall} {x : ℕ}
    (h : ∀ c ∈ calls, x < idt + 16 * c.num ∨ idt + 16 * c.num + 16 ≤ x) :
    runInterrupts m idt calls x = m x := by
  induction calls using List.reverseRecOn with
  | nil => rfl
  | append_singleton calls c ih =>
    rw [runInterrupts_append, setInterrupt_of_not_mem (h c (by simp))]
    exact ih fun c' hc' => h c' (List.mem_append_left _ hc')

end gate

end Cboot
