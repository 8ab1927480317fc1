import Cboot.Interrupts.Idt
import Cboot.Paging.Entry

/-!
# Exceptions

The handlers that `setup_interrupts` fills the table with, and how the processor gets to them:
it reads a gate, looks at the descriptor of the code segment, and pushes the registers of the
program that is interrupted (`deliver`). The compiler has a handler expect an error code below
them if it is declared with one, and has it return to what is above (`Handler.frame`).

* `Ready`: every exception gets to its handler. `setup_interrupts` makes this so, and no store
  off the tables undoes it, those of the interrupts themselves included (`ready_of_run`);
* `resumes_iff`: the program can be resumed where it was interrupted, but for the exceptions 21
  and 29, whose handler does not expect the error code that they have.
-/

namespace Cboot

open Bitfield

/-! ## Handlers -/

/-- The handlers of `exceptions.c`. -/
inductive Handler
  | haltingInterruptHandler | divByZeroInterrupt | debugInterrupt | nmiInterrupt | breakpoint
  | overflowInterrupt | boundRangeExceededInterrupt | invalidOpcodeInterrupt
  | deviceNotAvailableInterrupt | doubleFaultInterrupt | coprocessorSegmentOverrunInterrupt
  | invalidTssInterrupt | segmentNotPresentInterrupt | stackSegmentFaultInterrupt
  | generalProtectionFaultInterrupt | pageFaultHandler | x87FpuInterrupt
  | alignmentCheckInterrupt | machineCheckInterrupt | simdFloatingPointInterrupt
  | virtualizationInterrupt | securityExceptionInterrupt
  deriving DecidableEq

/-- The handlers that are declared with an error code. -/
def Handler.takesErrorCode : Handler → Bool
  | doubleFaultInterrupt | invalidTssInterrupt | segmentNotPresentInterrupt
  | stackSegmentFaultInterrupt | generalProtectionFaultInterrupt | pageFaultHandler
  | alignmentCheckInterrupt | securityExceptionInterrupt => true
  | _ => false

/-- The numbers and the handlers in the calls of `setup_interrupts`. -/
def interruptHandlers : List (ℕ × Handler) := [
  (0, .divByZeroInterrupt), (1, .debugInterrupt), (2, .nmiInterrupt), (3, .breakpoint),
  (4, .overflowInterrupt), (5, .boundRangeExceededInterrupt), (6, .invalidOpcodeInterrupt),
  (7, .deviceNotAvailableInterrupt), (8, .doubleFaultInterrupt),
  (9, .coprocessorSegmentOverrunInterrupt), (10, .invalidTssInterrupt),
  (11, .segmentNotPresentInterrupt), (12, .stackSegmentFaultInterrupt),
  (13, .generalProtectionFaultInterrupt), (14, .pageFaultHandler),
  (15, .haltingInterruptHandler), (16, .x87FpuInterrupt), (17, .alignmentCheckInterrupt),
  (18, .machineCheckInterrupt), (19, .simdFloatingPointInterrupt),
  (20, .virtualizationInterrupt), (21, .haltingInterruptHandler),
  (22, .haltingInterruptHandler), (23, .haltingInterruptHandler),
  (24, .haltingInterruptHandler), (25, .haltingInterruptHandler),
  (26, .haltingInterruptHandler), (27, .haltingInterruptHandler),
  (28, .haltingInterruptHandler), (29, .haltingInterruptHandler),
  (30, .securityExceptionInterrupt), (31, .haltingInterruptHandler)]

/-- The operand of `lidt` and `lgdt`. -/
structure TableRegister where
  limit : ℕ
  base : ℕ

/-- `lidt` -/
def lidt (idt : ℕ) : TableRegister where
  limit := 16 * 32 - 1
  base := idt

/-- `setup_interrupts`, for the table at `idt`, with the addresses of the handlers. -/
def setupInterrupts (m : Memory) (idt : ℕ) (garbage : ℕ → UInt16) (address : Handler → UInt64) :
    Memory × TableRegister :=
  (runInterrupts m idt (interruptHandlers.map fun (num, h) => ⟨garbage num, num, address h⟩),
    lidt idt)

/-! ## The processor -/

/-- What an interrupt saves of the program, in the order of `InterruptFrame`. -/
structure InterruptFrame where
  rip : UInt64
  cs : UInt64
  rflags : UInt64
  rsp : UInt64
  ss : UInt64
  deriving DecidableEq

/-- The frame at `p`. -/
def frameAt (m : Memory) (p : ℕ) : InterruptFrame where
  rip := .ofNat (m.read 8 p)
  cs := .ofNat (m.read 8 (p + 8))
  rflags := .ofNat (m.read 8 (p + 16))
  rsp := .ofNat (m.read 8 (p + 24))
  ss := .ofNat (m.read 8 (p + 32))

/-- The exceptions that come with an error code. -/
def pushesErrorCode (num : ℕ) : Bool := num ∈ [8, 10, 11, 12, 13, 14, 17, 21, 29, 30]

/-- The descriptor is for a code segment of 64 bits, of the kernel, that is present. -/
def IsCode64 (raw : ℕ) : Prop :=
  getField raw 43 2 = 3 ∧ getField raw 45 2 = 0 ∧ getField raw 47 1 = 1 ∧ getField raw 53 2 = 1

instance (raw : ℕ) : Decidable (IsCode64 raw) := inferInstanceAs (Decidable (_ ∧ _ ∧ _))

/-- The descriptor that a selector is for, if there is one. -/
def descriptorAt (m : Memory) (gdtr : TableRegister) (selector : ℕ) : Option ℕ :=
  if selector / 8 = 0 ∨ gdtr.limit < selector / 8 * 8 + 7 then none
  else some (m.read 8 (gdtr.base + selector / 8 * 8))

/-- Pushing a register on the stack. -/
def push (s : Memory × ℕ) (v : UInt64) : Memory × ℕ := (s.1.write 8 (s.2 - 8) v.toNat, s.2 - 8)

/-- The frame that is pushed for the program `r`, from the next address that is a multiple of
    16 downwards, and the error code if there is one. -/
def pushFrame (m : Memory) (r : InterruptFrame) (num : ℕ) (err : UInt64) : Memory × ℕ :=
  let s := (m, r.rsp.toNat / 16 * 16)
  let s := push (push (push (push (push s r.ss) r.rsp) r.rflags) r.cs) r.rip
  if pushesErrorCode num then push s err else s

/-- What the processor does at the exception `num`: the memory and the registers in which the
    handler starts. It does not get there if the table has no gate for the exception that is
    present and leads to an address in a code segment, on the stack that is in use. -/
def deliver (m : Memory) (idtr gdtr : TableRegister) (r : InterruptFrame) (num : ℕ)
    (err : UInt64) : Option (Memory × InterruptFrame) :=
  let gate := gateAt m (idtr.base + 16 * num)
  if idtr.limit < 16 * num + 15 ∨ gate.present = 0 ∨ (gate.type ≠ 0xE ∧ gate.type ≠ 0xF) ∨
      gate.ist ≠ 0 ∨ ¬Canonical gate.offset then none
  else match descriptorAt m gdtr gate.selector with
    | none => none
    | some raw =>
      if IsCode64 raw then
        let (m', rsp) := pushFrame m r num err
        -- An interrupt gate also clears IF; TF, NT and RF are cleared by all of them.
        let rflags := setField (setField (setField r.rflags.toNat 8 1 0) 14 1 0) 16 1 0
        let rflags := if gate.type = 0xE then setField rflags 9 1 0 else rflags
        some (m', ⟨.ofNat gate.offset, .ofNat gate.selector, .ofNat rflags, .ofNat rsp, r.ss⟩)
      else none

/-- The argument `frame` of a handler that starts with the stack pointer `rsp`. It is also what
    the handler returns to. -/
def Handler.frame (h : Handler) (rsp : ℕ) : ℕ := if h.takesErrorCode then rsp + 8 else rsp

/-- The error code that a handler is given, if it is declared with one. -/
def Handler.err (h : Handler) (m : Memory) (rsp : ℕ) : Option UInt64 :=
  if h.takesErrorCode then some (.ofNat (m.read 8 rsp)) else none

/-- The table `GDT64` of `start.asm`. -/
def gdt64 : List UInt8 := [
  0xFF, 0xFF, 0, 0, 0, 0, 1, 0,
  0, 0, 0, 0, 0, 0x9A, 0xAF, 0,
  0, 0, 0, 0, 0, 0x92, 0x00, 0]

/-- `GDT64.Pointer` -/
def gdt64Pointer (gdt : ℕ) : TableRegister where
  limit := 24 - 1
  base := gdt

/-! ## Delivery -/

section delivery

variable {m m' : Memory} {r : InterruptFrame} {num sp : ℕ} {err : UInt64}

theorem ofNat_read_write (m : Memory) (p : ℕ) (v : UInt64) :
    UInt64.ofNat ((m.write 8 p v.toNat).read 8 p) = v := by
  rw [Memory.read_write_of_lt _ _ _ v.toNat_lt, UInt64.ofNat_toNat]

/-- Five pushes make a frame. -/
theorem frameAt_push (s : Memory × ℕ) (r : InterruptFrame) (h : 40 ≤ s.2) :
    let s' := push (push (push (push (push s r.ss) r.rsp) r.rflags) r.cs) r.rip
    s'.2 = s.2 - 40 ∧ frameAt s'.1 s'.2 = r ∧
      ∀ x, x < s.2 - 40 ∨ s.2 ≤ x → s'.1 x = s.1 x := by
  obtain ⟨m, p⟩ := s
  obtain ⟨rip, cs, rflags, rsp, ss⟩ := r
  change 40 ≤ p at h
  have h₁ : p - 8 - 8 - 8 - 8 - 8 + 8 = p - 8 - 8 - 8 - 8 := by omega
  have h₂ : p - 8 - 8 - 8 - 8 - 8 + 16 = p - 8 - 8 - 8 := by omega
  have h₃ : p - 8 - 8 - 8 - 8 - 8 + 24 = p - 8 - 8 := by omega
  have h₄ : p - 8 - 8 - 8 - 8 - 8 + 32 = p - 8 := by omega
  refine ⟨by simp only [push]; omega, ?_, fun x hx => ?_⟩
  · simp only [push, frameAt, h₁, h₂, h₃, h₄, InterruptFrame.mk.injEq]
    refine ⟨ofNat_read_write _ _ _, ?_, ?_, ?_, ?_⟩
    · rw [Memory.read_write_of_disjoint (by omega), ofNat_read_write]
    · rw [Memory.read_write_of_disjoint (by omega), Memory.read_write_of_disjoint (by omega),
        ofNat_read_write]
    · rw [Memory.read_write_of_disjoint (by omega), Memory.read_write_of_disjoint (by omega),
        Memory.read_write_of_disjoint (by omega), ofNat_read_write]
    · rw [Memory.read_write_of_disjoint (by omega), Memory.read_write_of_disjoint (by omega),
        Memory.read_write_of_disjoint (by omega), Memory.read_write_of_disjoint (by omega),
        ofNat_read_write]
  · simp only [push]
    rw [Memory.write_of_not_mem (by omega), Memory.write_of_not_mem (by omega),
      Memory.write_of_not_mem (by omega), Memory.write_of_not_mem (by omega),
      Memory.write_of_not_mem (by omega)]

/-- The offset of the frame from where the handler starts. -/
def errorSize (num : ℕ) : ℕ := if pushesErrorCode num then 8 else 0

/-- The frame of an exception, with the error code below it. -/
theorem pushFrame_spec (m : Memory) (r : InterruptFrame) (num : ℕ) (err : UInt64)
    (h : 64 ≤ r.rsp.toNat) :
    ∃ m' sp, pushFrame m r num err = (m', sp) ∧ r.rsp.toNat ≤ sp + 64 ∧ sp < r.rsp.toNat ∧
      frameAt m' (sp + errorSize num) = r ∧
      (pushesErrorCode num = true → UInt64.ofNat (m'.read 8 sp) = err) ∧
      ∀ x, x < sp ∨ r.rsp.toNat ≤ x → m' x = m x := by
  have hle : 40 ≤ r.rsp.toNat / 16 * 16 := by omega
  obtain ⟨hsp, hframe, hkeep⟩ := frameAt_push (m, r.rsp.toNat / 16 * 16) r hle
  change _ = r.rsp.toNat / 16 * 16 - 40 at hsp
  change ∀ x, x < r.rsp.toNat / 16 * 16 - 40 ∨ r.rsp.toNat / 16 * 16 ≤ x → _ = m x at hkeep
  rw [pushFrame, errorSize]
  generalize push (push (push (push (push (m, r.rsp.toNat / 16 * 16) r.ss) r.rsp) r.rflags)
    r.cs) r.rip = s at *
  obtain ⟨m', sp⟩ := s
  obtain rfl : sp = _ := hsp
  by_cases hpush : pushesErrorCode num = true
  · rw [if_pos hpush, if_pos hpush]
    refine ⟨_, _, rfl, by omega, by omega, ?_, fun _ => ofNat_read_write _ _ _, fun x hx => ?_⟩
    · rw [Nat.sub_add_cancel (by omega)]
      refine Eq.trans ?_ hframe
      simp only [frameAt]
      rw [Memory.read_write_of_disjoint (by omega), Memory.read_write_of_disjoint (by omega),
        Memory.read_write_of_disjoint (by omega), Memory.read_write_of_disjoint (by omega),
        Memory.read_write_of_disjoint (by omega)]
    · rw [Memory.write_of_not_mem (by omega)]
      exact hkeep x (by omega)
  · rw [if_neg hpush, if_neg hpush]
    exact ⟨_, _, rfl, by omega, by omega, hframe, fun h => absurd h hpush, fun x hx =>
      hkeep x (by omega)⟩

/-- The tables are in place: every exception has the gate of its handler, and there is the
    descriptor of the code segment. -/
structure Ready (idt gdt : ℕ) (address : Handler → UInt64) (m : Memory) : Prop where
  gate : ∀ x ∈ interruptHandlers, gateAt m (idt + 16 * x.1) = interruptGate (address x.2)
  gdt : ∀ i < 24, m (gdt + i) = gdt64.getD i 0

/-- The addresses of the two tables. -/
def OnTables (idt gdt x : ℕ) : Prop := idt ≤ x ∧ x < idt + 16 * 32 ∨ gdt ≤ x ∧ x < gdt + 24

variable {idt gdt : ℕ} {address : Handler → UInt64}

theorem interruptHandlers_lt : ∀ x ∈ interruptHandlers, x.1 < 32 := by decide

theorem Ready.congr (h : Ready idt gdt address m) (heq : ∀ x, OnTables idt gdt x → m' x = m x) :
    Ready idt gdt address m' where
  gate x hx := by
    have hlt := interruptHandlers_lt x hx
    rw [← h.gate x hx]
    exact gateAt_congr fun i hi => heq _ (.inl (by omega))
  gdt i hi := (heq _ (.inr (by omega))).trans (h.gdt i hi)

/-- The last call of `setup_interrupts` for a number is the one of the table. -/
theorem lastCall_interruptHandlers (garbage : ℕ → UInt16) (address : Handler → UInt64) :
    ∀ x ∈ interruptHandlers, lastCall (interruptHandlers.map fun (num, h) =>
      ⟨garbage num, num, address h⟩) x.1 = some ⟨garbage x.1, x.1, address x.2⟩ := by
  intro x hx
  have hfind : ∀ x ∈ interruptHandlers,
      interruptHandlers.reverse.find? (fun y => y.1 = x.1) = some x := by decide
  rw [lastCall, ← List.map_reverse, List.find?_map]
  exact congrArg (Option.map _) (hfind x hx)

/-- `setup_interrupts` puts the tables in place, if `lgdt` has its own. -/
theorem ready_setupInterrupts (garbage : ℕ → UInt16) (hgdt : ∀ i < 24, m (gdt + i) = gdt64.getD i 0)
    (hoff : gdt + 24 ≤ idt ∨ idt + 16 * 32 ≤ gdt) :
    Ready idt gdt address (setupInterrupts m idt garbage address).1 where
  gate x hx := by
    rw [setupInterrupts, gateAt_runInterrupts, lastCall_interruptHandlers garbage address x hx]
  gdt i hi := by
    rw [← hgdt i hi]
    refine runInterrupts_of_not_mem fun c hc => ?_
    obtain ⟨x, hx, rfl⟩ := List.mem_map.1 hc
    have hlt := interruptHandlers_lt x hx
    change _ < idt + 16 * x.1 ∨ idt + 16 * x.1 + 16 ≤ _
    omega

/-- The selector of the gates is for the code descriptor. -/
theorem descriptorAt_code (h : Ready idt gdt address m) :
    ∃ raw, descriptorAt m (gdt64Pointer gdt) 0x8 = some raw ∧ IsCode64 raw := by
  have hread : m.read 8 (gdt + 8) = Memory.read (fun i => gdt64.getD i 0) 8 8 :=
    Memory.read_congr fun i hi => by
      rw [Nat.add_assoc]
      exact h.gdt (8 + i) (by omega)
  have hin : ¬(0x8 / 8 = 0 ∨ 24 - 1 < 0x8 / 8 * 8 + 7) := by decide
  refine ⟨_, if_neg hin, ?_⟩
  change IsCode64 (m.read 8 (gdt + 8))
  rw [hread]
  decide

/-- The flags that a handler starts with. -/
def handlerFlags (rflags : UInt64) : UInt64 :=
  .ofNat (setField (setField (setField (setField rflags.toNat 8 1 0) 14 1 0) 16 1 0) 9 1 0)

/-- With the tables in place, an exception gets to its handler. -/
theorem deliver_of_ready (h : Ready idt gdt address m) (haddress : ∀ h, Canonical (address h).toNat)
    {x : ℕ × Handler} (hx : x ∈ interruptHandlers) (r : InterruptFrame) (err : UInt64) :
    deliver m (lidt idt) (gdt64Pointer gdt) r x.1 err =
      some ((pushFrame m r x.1 err).1, ⟨address x.2, 0x8, handlerFlags r.rflags,
        .ofNat (pushFrame m r x.1 err).2, r.ss⟩) := by
  obtain ⟨raw, hraw, hcode⟩ := descriptorAt_code h
  have hlt := interruptHandlers_lt x hx
  have hgate : gateAt m ((lidt idt).base + 16 * x.1) = interruptGate (address x.2) := h.gate x hx
  have hoff : ¬((lidt idt).limit < 16 * x.1 + 15 ∨ (interruptGate (address x.2)).present = 0 ∨
      ((interruptGate (address x.2)).type ≠ 0xE ∧ (interruptGate (address x.2)).type ≠ 0xF) ∨
      (interruptGate (address x.2)).ist ≠ 0 ∨
      ¬Canonical (interruptGate (address x.2)).offset) := by
    simp only [interruptGate, lidt, not_or]
    exact ⟨by omega, by decide, by decide, by decide, not_not_intro (haddress x.2)⟩
  have hdesc : descriptorAt m (gdt64Pointer gdt) (interruptGate (address x.2)).selector =
      some raw := hraw
  rw [deliver]
  simp only [hgate, if_neg hoff, hdesc, if_pos hcode]
  simp only [interruptGate, UInt64.ofNat_toNat]
  rfl

/-! ## Runs -/

/-- The memories that a program may get to from `setup_interrupts` on, with exceptions at any
    time: it stores off the tables, and has its stack off them. -/
inductive InterruptRun (idt gdt : ℕ) (address : Handler → UInt64) : Memory → Prop
  | setup {m : Memory} (garbage : ℕ → UInt16) : (∀ i < 24, m (gdt + i) = gdt64.getD i 0) →
    InterruptRun idt gdt address (setupInterrupts m idt garbage address).1
  | store {m m' : Memory} : InterruptRun idt gdt address m →
    (∀ x, OnTables idt gdt x → m' x = m x) → InterruptRun idt gdt address m'
  | interrupt {m m' : Memory} {r r' : InterruptFrame} {num : ℕ} {err : UInt64} :
    InterruptRun idt gdt address m →
    deliver m (lidt idt) (gdt64Pointer gdt) r num err = some (m', r') → 64 ≤ r.rsp.toNat →
    (∀ x, OnTables idt gdt x → x + 64 < r.rsp.toNat ∨ r.rsp.toNat ≤ x) →
    InterruptRun idt gdt address m'

/-- Only the frame and the error code are stored. -/
theorem deliver_of_not_mem {idtr gdtr : TableRegister} {r' : InterruptFrame}
    (h : deliver m idtr gdtr r num err = some (m', r')) (hrsp : 64 ≤ r.rsp.toNat) {x : ℕ}
    (hx : x + 64 < r.rsp.toNat ∨ r.rsp.toNat ≤ x) : m' x = m x := by
  have hm' : m' = (pushFrame m r num err).1 := by
    simp only [deliver] at h
    split at h
    · cases h
    · split at h
      · cases h
      · split at h
        · exact congrArg Prod.fst (Option.some_inj.1 h).symm
        · cases h
  obtain ⟨m₁, sp, hpush, hle, -, -, -, hkeep⟩ := pushFrame_spec m r num err hrsp
  rw [hm', hpush]
  exact hkeep x (by omega)

/-- In every run, the tables stay in place. -/
theorem ready_of_run (hoff : gdt + 24 ≤ idt ∨ idt + 16 * 32 ≤ gdt)
    (h : InterruptRun idt gdt address m) : Ready idt gdt address m := by
  induction h with
  | setup garbage hgdt => exact ready_setupInterrupts garbage hgdt hoff
  | store _ heq ih => exact ih.congr heq
  | interrupt _ hdeliver hrsp hstack ih =>
    exact ih.congr fun x hx => deliver_of_not_mem hdeliver hrsp (hstack x hx)

/-- The exception `num` of the program `r` gets to the handler `h`, with its error code, and
    with no interrupts in between. -/
structure Delivered (m : Memory) (idt gdt : ℕ) (address : Handler → UInt64) (r : InterruptFrame)
    (num : ℕ) (err : UInt64) (h : Handler) (m' : Memory) (r' : InterruptFrame) : Prop where
  delivered : deliver m (lidt idt) (gdt64Pointer gdt) r num err = some (m', r')
  rip : r'.rip = address h
  cs : r'.cs = 0x8
  masked : getField r'.rflags.toNat 9 1 = 0
  err : pushesErrorCode num = true → h.takesErrorCode = true → h.err m' r'.rsp.toNat = some err
  saved : frameAt m' (r'.rsp.toNat + errorSize num) = r
  kept : ∀ x, x < r'.rsp.toNat ∨ r.rsp.toNat ≤ x → m' x = m x
  bound : r.rsp.toNat ≤ r'.rsp.toNat + 64 ∧ r'.rsp.toNat < r.rsp.toNat

theorem handlerFlags_masked (rflags : UInt64) : getField (handlerFlags rflags).toNat 9 1 = 0 := by
  have hlt : setField (setField (setField (setField rflags.toNat 8 1 0) 14 1 0) 16 1 0) 9 1 0 <
      2 ^ 64 :=
    setField_lt _ _ _ _ (setField_lt _ _ _ _ (setField_lt _ _ _ _ (setField_lt _ _ _ _
      rflags.toNat_lt (by decide)) (by decide)) (by decide)) (by decide)
  rw [handlerFlags, UInt64.toNat_ofNat_of_lt' hlt, getField_setField]
  rfl

theorem delivered_of_ready (hready : Ready idt gdt address m)
    (haddress : ∀ h, Canonical (address h).toNat) {x : ℕ × Handler} (hx : x ∈ interruptHandlers)
    (r : InterruptFrame) (err : UInt64) (hrsp : 64 ≤ r.rsp.toNat) :
    ∃ m' r', Delivered m idt gdt address r x.1 err x.2 m' r' := by
  have hdeliver := deliver_of_ready hready haddress hx r err
  obtain ⟨m', sp, hpush, hle, hlt, hframe, herr, hkeep⟩ := pushFrame_spec m r x.1 err hrsp
  rw [hpush] at hdeliver
  have hsp : (UInt64.ofNat sp).toNat = sp :=
    UInt64.toNat_ofNat_of_lt' (hlt.trans r.rsp.toNat_lt)
  refine ⟨m', _, hdeliver, rfl, rfl, handlerFlags_masked _, fun hnum htakes => ?_, ?_, ?_, ?_⟩
  · change x.2.err m' (UInt64.ofNat sp).toNat = _
    rw [hsp, Handler.err, if_pos htakes, herr hnum]
  · change frameAt m' ((UInt64.ofNat sp).toNat + _) = _
    rw [hsp, hframe]
  · change ∀ x, x < (UInt64.ofNat sp).toNat ∨ _ → _
    rwa [hsp]
  · change _ ≤ (UInt64.ofNat sp).toNat + 64 ∧ (UInt64.ofNat sp).toNat < _
    rw [hsp]
    exact ⟨hle, hlt⟩

/-- In every run, whatever exceptions there have been, each of the first 32 gets to the handler
    of its number, and no other interrupt gets anywhere. -/
theorem interrupts_handled (hoff : gdt + 24 ≤ idt ∨ idt + 16 * 32 ≤ gdt)
    (haddress : ∀ h, Canonical (address h).toNat) (hrun : InterruptRun idt gdt address m)
    (r : InterruptFrame) (hrsp : 64 ≤ r.rsp.toNat) (num : ℕ) (err : UInt64) :
    (num < 32 → ∃ h, (num, h) ∈ interruptHandlers ∧
      ∃ m' r', Delivered m idt gdt address r num err h m' r') ∧
    (32 ≤ num → deliver m (lidt idt) (gdt64Pointer gdt) r num err = none) := by
  constructor
  · intro hnum
    have hall : ∀ num < 32, ∃ x ∈ interruptHandlers, x.1 = num := by decide
    obtain ⟨x, hx, rfl⟩ := hall num hnum
    exact ⟨x.2, hx, delivered_of_ready (ready_of_run hoff hrun) haddress hx r err hrsp⟩
  · intro hnum
    exact if_pos (.inl (by simp only [lidt]; omega))

/-- A handler that does not expect the error code takes it for the address to return to. -/
theorem frameAt_shift (hframe : frameAt m (sp + 8) = r) (hcs : r.cs = 0x8)
    (hflags : getField r.rflags.toNat 1 1 = 1) : frameAt m sp ≠ r := by
  intro h
  -- The code segment of the program would be its flags, of which one is always set.
  have hshift : (frameAt m sp).rflags = (frameAt m (sp + 8)).cs := rfl
  rw [h, hframe, hcs] at hshift
  rw [hshift] at hflags
  exact absurd hflags (by decide)

/-- In every run, the program can be resumed by the handler of an exception, unless it is one of
    the two whose error code the handler does not expect. -/
theorem resumes_iff (hoff : gdt + 24 ≤ idt ∨ idt + 16 * 32 ≤ gdt)
    (haddress : ∀ h, Canonical (address h).toNat) (hrun : InterruptRun idt gdt address m)
    (r : InterruptFrame) (hrsp : 64 ≤ r.rsp.toNat) (hcs : r.cs = 0x8)
    (hflags : getField r.rflags.toNat 1 1 = 1) {num : ℕ} (hnum : num < 32) (err : UInt64) :
    ∃ h m' r', deliver m (lidt idt) (gdt64Pointer gdt) r num err = some (m', r') ∧
      r'.rip = address h ∧ (num, h) ∈ interruptHandlers ∧
      (frameAt m' (h.frame r'.rsp.toNat) = r ↔ num ≠ 21 ∧ num ≠ 29) := by
  have hall : ∀ num < 32, ∃ x ∈ interruptHandlers, x.1 = num := by decide
  obtain ⟨x, hx, rfl⟩ := hall num hnum
  obtain ⟨m', r', hd⟩ :=
    delivered_of_ready (ready_of_run hoff hrun) haddress hx r err hrsp
  refine ⟨x.2, m', r', hd.delivered, hd.rip, hx, ?_⟩
  have hdeclared : ∀ x ∈ interruptHandlers, if x.1 ≠ 21 ∧ x.1 ≠ 29 then
      x.2.takesErrorCode = pushesErrorCode x.1
      else x.2.takesErrorCode = false ∧ pushesErrorCode x.1 = true := by decide
  have hdeclared := hdeclared x hx
  have hsaved := hd.saved
  split at hdeclared
  · rename_i hne
    refine iff_of_true ?_ hne
    have hframe : x.2.frame r'.rsp.toNat = r'.rsp.toNat + errorSize x.1 := by
      rw [Handler.frame, errorSize, hdeclared]
      split <;> rfl
    rw [hframe, hsaved]
  · rename_i heq
    refine iff_of_false ?_ heq
    have hframe : x.2.frame r'.rsp.toNat = r'.rsp.toNat := by
      rw [Handler.frame, hdeclared.1]
      rfl
    rw [errorSize, if_pos hdeclared.2] at hsaved
    rw [hframe]
    exact frameAt_shift hsaved hcs hflags

end delivery

/-! ## One program -/

/-- A memory with the table of `start.asm` at 0x8000. -/
def memoryWithGdt : Memory := fun x => gdt64.getD (x - 0x8000) 0

/-- Handlers at two addresses. -/
def addressOne : Handler → UInt64 := fun h => if h.takesErrorCode then 0x10000 else 0x10100

theorem addressOne_canonical (h : Handler) : Canonical (addressOne h).toNat := by
  cases h <;> decide

theorem interruptRun_one : InterruptRun 0x9000 0x8000 addressOne
    (setupInterrupts memoryWithGdt 0x9000 (fun _ => 0xABCD) addressOne).1 := by
  refine .setup (fun _ => 0xABCD) fun i _ => ?_
  rw [memoryWithGdt, Nat.add_sub_cancel_left]

/-- A program at the address 0x7E00, which is interrupted. -/
def programOne : InterruptFrame := ⟨0x7E00, 0x8, 0x202, 0x6FFE8, 0⟩

theorem interrupts_handled_one :
    let m := (setupInterrupts memoryWithGdt 0x9000 (fun _ => 0xABCD) addressOne).1
    (13 < 32 → ∃ h, (13, h) ∈ interruptHandlers ∧
      ∃ m' r', Delivered m 0x9000 0x8000 addressOne programOne 13 0 h m' r') ∧
    (32 ≤ 13 → deliver m (lidt 0x9000) (gdt64Pointer 0x8000) programOne 13 0 = none) :=
  interrupts_handled (.inl (by decide)) addressOne_canonical interruptRun_one programOne
    (by decide) 13 0

theorem resumes_iff_one :
    let m := (setupInterrupts memoryWithGdt 0x9000 (fun _ => 0xABCD) addressOne).1
    ∃ h m' r', deliver m (lidt 0x9000) (gdt64Pointer 0x8000) programOne 21 3 = some (m', r') ∧
      r'.rip = addressOne h ∧ (21, h) ∈ interruptHandlers ∧
      (frameAt m' (h.frame r'.rsp.toNat) = programOne ↔ 21 ≠ 21 ∧ 21 ≠ 29) :=
  resumes_iff (.inl (by decide)) addressOne_canonical interruptRun_one programOne (by decide) rfl
    (by decide) (by decide) 3

end Cboot
