import Cboot.Interrupts.Exceptions
import Cboot.Paging.Listing

/-!
# What the handlers print

The bodies of the handlers of `exceptions.c`, up to their `hlt`. Most print a text; those for
the page fault and the general protection fault also print numbers and the page tables.

* `runHandler_returns`: every handler prints its report, and ends;
* `reports_tell`: the report tells which handler it is from, and all numbers in it but the high
  bits of the error code of a page fault, which is cut to 8 bits;
* `exception_reported`: in every run, an exception of a program is reported by the handler of
  its number.
-/

namespace Cboot

open Fueled

/-! ## The handlers -/

/-- The text that a handler prints first, which is all for most of them. -/
def Handler.text : Handler → List UInt8
  | haltingInterruptHandler => ascii "UNHANDLED INTERRUPT"
  | divByZeroInterrupt => ascii "DIV BY ZERO INTERRUPT"
  | debugInterrupt => ascii "DEBUG INTERRUPT"
  | nmiInterrupt => ascii "NON MASKABLE INTERRUPT"
  | breakpoint => ascii "BREAKPOINT INTERRUPT"
  | overflowInterrupt => ascii "OVERFLOW INTERRUPT"
  | boundRangeExceededInterrupt => ascii "BOUND RANGE EXCEEDED INTERRUPT"
  | invalidOpcodeInterrupt => ascii "INVALID OPCODE INTERRUPT"
  | deviceNotAvailableInterrupt => ascii "DEVICE NOT AVAILABLE INTERRUPT"
  | doubleFaultInterrupt => ascii "DOUBLE FAULT INTERRUPT"
  | coprocessorSegmentOverrunInterrupt => ascii "COPROCESSOR SEGMENT OVERRUN INTERRUPT"
  | invalidTssInterrupt => ascii "INVALID TSS INTERRUPT"
  | segmentNotPresentInterrupt => ascii "SEGMENT NOT PRESENT INTERRUPT"
  | stackSegmentFaultInterrupt => ascii "STACK SEGMENT FAULT INTERRUPT"
  | generalProtectionFaultInterrupt => ascii "GENERAL PROTECTION FAULT INTERRUPT\n"
  | pageFaultHandler => ascii "PAGE FAULT EXCEPTION\n"
  | x87FpuInterrupt => ascii "X87 FLOATING POINT EXCEPTION INTERRUPT"
  | alignmentCheckInterrupt => ascii "ALIGNMENT CHECK INTERRUPT"
  | machineCheckInterrupt => ascii "MACHINE CHECK INTERRUPT"
  | simdFloatingPointInterrupt => ascii "SIMD FLOATING POINT EXCEPTION"
  | virtualizationInterrupt => ascii "VIRTUALIZATION INTERRUPT"
  | securityExceptionInterrupt => ascii "SECURITY EXCEPTION"

section handlers

-- The memory and the control registers in which a handler starts; the buffer of `putd` is on
-- the stack.
variable (m stack : Memory) (buf : ℕ) (cr2 cr3 : UInt64)

/-- `general_protection_fault_interrupt` -/
def generalProtectionFaultInterrupt (frame : InterruptFrame) (err : UInt64) (out : List UInt8) :
    Fueled (List UInt8) := do
  let out ← puts (literal (Handler.text .generalProtectionFaultInterrupt)) 0 out
  let out ← puts (literal (ascii "error code = ")) 0 out
  let out ← putx64 err out
  let out := putc out 0x0A
  let out ← puts (literal (ascii "rip = ")) 0 out
  let out ← putx64 frame.rip out
  let out := putc out 0x0A
  printPagetable m stack buf cr3.toNat 4 out

/-- A line for an index of the address of a page fault. -/
def printIndex (text : List UInt8) (index : Fin 512) (out : List UInt8) : Fueled (List UInt8) := do
  let out ← puts (literal text) 0 out
  let (_, out) ← putd stack buf (.ofNat index) out
  pure (putc out 0x0A)

/-- `page_fault_handler` -/
def pageFaultHandler (errcode : UInt64) (out : List UInt8) : Fueled (List UInt8) := do
  let out ← puts (literal (Handler.text .pageFaultHandler)) 0 out
  let out ← puts (literal (ascii "error code = ")) 0 out
  let out ← putx8 errcode.toUInt8 out
  let out := putc out 0x0A
  let vaddr := cr2.toNat
  let out ← puts (literal (ascii "CR2 = ")) 0 out
  let out ← putx64 cr2 out
  let out := putc out 0x0A
  let out ← printIndex stack buf (ascii "l4-index = ") (l4Index vaddr) out
  let out ← printIndex stack buf (ascii "l3-index = ") (l3Index vaddr) out
  let out ← printIndex stack buf (ascii "l2-index = ") (l2Index vaddr) out
  let out ← printIndex stack buf (ascii "l1-index = ") (l1Index vaddr) out
  printPagetable m stack buf cr3.toNat 4 out

/-- A handler that starts with the stack pointer `rsp`, up to its `hlt`. -/
def runHandler (h : Handler) (rsp : ℕ) (out : List UInt8) : Fueled (List UInt8) :=
  match h with
  | .generalProtectionFaultInterrupt =>
    generalProtectionFaultInterrupt m stack buf cr3 (frameAt m (h.frame rsp)) (.ofNat (m.read 8 rsp))
      out
  | .pageFaultHandler => pageFaultHandler m stack buf cr2 cr3 (.ofNat (m.read 8 rsp)) out
  | h => puts (literal h.text) 0 out

end handlers

/-! ## Reports -/

/-- What a report is about. -/
structure Report where
  handler : Handler
  err : UInt64
  rip : UInt64
  cr2 : UInt64
  lines : List Line

namespace Report

/-- The lines for the indices of an address. -/
def indicesText (va : ℕ) : List UInt8 :=
  ascii "l4-index = " ++ decimal (l4Index va) ++ [0x0A] ++
    (ascii "l3-index = " ++ decimal (l3Index va) ++ [0x0A]) ++
    (ascii "l2-index = " ++ decimal (l2Index va) ++ [0x0A]) ++
    (ascii "l1-index = " ++ decimal (l1Index va) ++ [0x0A])

/-- What is printed after the first text. -/
def details (r : Report) : List UInt8 :=
  match r.handler with
  | .generalProtectionFaultInterrupt =>
    ascii "error code = " ++ hexNumeral 16 r.err.toNat ++ [0x0A] ++ ascii "rip = " ++
      hexNumeral 16 r.rip.toNat ++ [0x0A] ++ r.lines.flatMap Line.text
  | .pageFaultHandler =>
    ascii "error code = " ++ hexPair r.err.toUInt8 ++ [0x0A] ++ ascii "CR2 = " ++
      hexNumeral 16 r.cr2.toNat ++ [0x0A] ++ indicesText r.cr2.toNat ++ r.lines.flatMap Line.text
  | _ => []

/-- The name of the exception, and the details. -/
def text (r : Report) : List UInt8 := r.handler.text ++ r.details

end Report

/-- The report of a handler that starts in the memory `m` with the stack pointer `rsp`. -/
def Handler.report (h : Handler) (m : Memory) (rsp : ℕ) (cr2 cr3 : UInt64) : Report where
  handler := h
  err := .ofNat (m.read 8 rsp)
  rip := (frameAt m (h.frame rsp)).rip
  cr2 := cr2
  lines := pagetableLines m cr3.toNat 4

section report

variable (m stack : Memory) (buf rsp : ℕ) (cr2 cr3 err : UInt64) (out : List UInt8)

theorem Handler.text_ne_zero : ∀ h : Handler, ∀ c ∈ h.text, c ≠ 0 := by
  intro h
  cases h <;> exact ascii_ne_zero (by decide)

theorem printIndex_returns {s : String} (hs : (s.toList.all fun c => c.toNat % 256 != 0) = true)
    (index : Fin 512) : (printIndex stack buf (ascii s) index out).Returns
      (out ++ (ascii s ++ decimal index ++ [0x0A])) := by
  have hindex : (UInt64.ofNat index).toNat = index :=
    UInt64.toNat_ofNat_of_lt' (index.isLt.trans (by decide))
  obtain ⟨_, hb, -⟩ := putd_returns stack buf (.ofNat index) (out ++ ascii s)
  rw [printIndex, (puts_ascii hs _).bind_iff, hb.bind_iff, returns_pure_iff, putc, hindex]
  simp only [List.append_assoc]

/-- Every handler prints its report, and gets to its `hlt`. -/
theorem runHandler_returns (h : Handler) : (runHandler m stack buf cr2 cr3 h rsp out).Returns
    (out ++ (h.report m rsp cr2 cr3).text) := by
  have htext := fun out => puts_literal h.text_ne_zero out
  have hlines := printPagetable_returns m stack buf cr3.toNat (show 4 < 2 ^ 64 by decide)
  cases h
  case generalProtectionFaultInterrupt =>
    rw [runHandler, generalProtectionFaultInterrupt, (htext _).bind_iff,
      (puts_ascii (by decide) _).bind_iff, (putx64_returns _ _).bind_iff,
      (puts_ascii (by decide) _).bind_iff, (putx64_returns _ _).bind_iff]
    refine (congrArg _ ?_).mp (hlines _)
    simp only [putc, Report.text, Report.details, Handler.report, List.append_assoc]
  case pageFaultHandler =>
    rw [runHandler, pageFaultHandler, (htext _).bind_iff, (puts_ascii (by decide) _).bind_iff,
      (putx8_returns _ _).bind_iff, (puts_ascii (by decide) _).bind_iff,
      (putx64_returns _ _).bind_iff, (printIndex_returns _ _ _ (by decide) _).bind_iff,
      (printIndex_returns _ _ _ (by decide) _).bind_iff,
      (printIndex_returns _ _ _ (by decide) _).bind_iff,
      (printIndex_returns _ _ _ (by decide) _).bind_iff]
    refine (congrArg _ ?_).mp (hlines _)
    simp only [putc, Report.text, Report.details, Report.indicesText, Handler.report,
      List.append_assoc]
  all_goals exact (congrArg _ (congrArg _ (List.append_nil _).symm)).mp (htext out)

end report

/-! ## Reading a report -/

/-- The handler that a report is from: the first and the tenth character tell. -/
def readHandler (text : List UInt8) : Handler :=
  match (text.getD 0 0).toNat, (text.getD 9 0).toNat with
  | 0x44, 0x52 => .divByZeroInterrupt
  | 0x44, 0x45 => .debugInterrupt
  | 0x4E, _ => .nmiInterrupt
  | 0x42, 0x54 => .breakpoint
  | 0x4F, _ => .overflowInterrupt
  | 0x42, _ => .boundRangeExceededInterrupt
  | 0x49, 0x50 => .invalidOpcodeInterrupt
  | 0x44, 0x54 => .deviceNotAvailableInterrupt
  | 0x44, _ => .doubleFaultInterrupt
  | 0x43, _ => .coprocessorSegmentOverrunInterrupt
  | 0x49, _ => .invalidTssInterrupt
  | 0x53, 0x4F => .segmentNotPresentInterrupt
  | 0x53, 0x4D => .stackSegmentFaultInterrupt
  | 0x47, _ => .generalProtectionFaultInterrupt
  | 0x50, _ => .pageFaultHandler
  | 0x58, _ => .x87FpuInterrupt
  | 0x41, _ => .alignmentCheckInterrupt
  | 0x4D, _ => .machineCheckInterrupt
  | 0x53, 0x54 => .simdFloatingPointInterrupt
  | 0x56, _ => .virtualizationInterrupt
  | 0x53, _ => .securityExceptionInterrupt
  | _, _ => .haltingInterruptHandler

theorem readHandler_text (h : Handler) (rest : List UInt8) : readHandler (h.text ++ rest) = h := by
  cases h <;> rfl

namespace Report

/-- The part of a report that is printed: an error code of a page fault is cut to 8 bits. -/
def shown (r : Report) : Report :=
  match r.handler with
  | .generalProtectionFaultInterrupt => { r with cr2 := 0 }
  | .pageFaultHandler => { r with err := r.err.toUInt8.toUInt64, rip := 0 }
  | h => ⟨h, 0, 0, 0, []⟩

/-- What is not shown is not printed. -/
theorem text_shown (r : Report) : r.shown.text = r.text := by
  obtain ⟨h, err, rip, cr2, lines⟩ := r
  cases h
  case pageFaultHandler =>
    have hcut : err.toUInt8.toUInt64.toUInt8 = err.toUInt8 := by
      refine UInt8.toNat_inj.1 ?_
      rw [UInt64.toNat_toUInt8, UInt8.toNat_toUInt64]
      exact Nat.mod_eq_of_lt (UInt8.toNat_lt _)
    simp only [shown, text, details, hcut]
  all_goals rfl

variable {r r' : Report}

/-- What is printed after the text of the handler tells the numbers that are shown. -/
theorem shown_eq_of_details (hl : ∀ l ∈ r.lines, l.Bounded) (hl' : ∀ l ∈ r'.lines, l.Bounded)
    (hhandler : r.handler = r'.handler) (h : r.details = r'.details) : r.shown = r'.shown := by
  obtain ⟨h₁, err, rip, cr2, lines⟩ := r
  obtain ⟨h₂, err', rip', cr2', lines'⟩ := r'
  obtain rfl : h₁ = h₂ := hhandler
  have hlen : ∀ n : UInt64, (hexNumeral 16 n.toNat).length = 16 := fun n => hexNumeral_length 16 _
  have h16 : ∀ {a b : UInt64}, hexNumeral 16 a.toNat = hexNumeral 16 b.toNat → a = b := fun h =>
    UInt64.toNat_inj.1 (hexNumeral_16_inj (UInt64.toNat_lt _) (UInt64.toNat_lt _) h)
  cases h₁
  case generalProtectionFaultInterrupt =>
    simp only [details, List.append_assoc] at h
    obtain ⟨-, h⟩ := List.append_inj h rfl
    obtain ⟨herr, h⟩ := List.append_inj h (by rw [hlen, hlen])
    obtain ⟨-, h⟩ := List.append_inj h rfl
    obtain ⟨-, h⟩ := List.append_inj h rfl
    obtain ⟨hrip, h⟩ := List.append_inj h (by rw [hlen, hlen])
    obtain ⟨-, h⟩ := List.append_inj h rfl
    have hlines : lines = lines' := Line.lines_of_text hl hl' h
    simp only [shown, h16 herr, h16 hrip, hlines]
  case pageFaultHandler =>
    simp only [details, List.append_assoc] at h
    obtain ⟨-, h⟩ := List.append_inj h rfl
    obtain ⟨herr, h⟩ := List.append_inj h (by rw [hexPair_length, hexPair_length])
    obtain ⟨-, h⟩ := List.append_inj h rfl
    obtain ⟨-, h⟩ := List.append_inj h rfl
    obtain ⟨hcr2, h⟩ := List.append_inj h (by rw [hlen, hlen])
    obtain ⟨-, h⟩ := List.append_inj h rfl
    rw [h16 hcr2] at h
    have hlines : lines = lines' := Line.lines_of_text hl hl' (List.append_cancel_left h)
    have hcut := hexNumeral_inj herr
    have hpow : (16 : ℕ) ^ 2 = 256 := by decide
    rw [hpow, Nat.mod_eq_of_lt (UInt8.toNat_lt _), Nat.mod_eq_of_lt (UInt8.toNat_lt _)] at hcut
    simp only [shown, UInt8.toNat_inj.1 hcut, h16 hcr2, hlines]
  all_goals rfl

/-- Two reports print the same text if and only if they show the same. -/
theorem text_eq_iff (hl : ∀ l ∈ r.lines, l.Bounded) (hl' : ∀ l ∈ r'.lines, l.Bounded) :
    r.text = r'.text ↔ r.shown = r'.shown := by
  constructor
  · intro h
    have hhandler : r.handler = r'.handler := by
      rw [← readHandler_text r.handler r.details, ← readHandler_text r'.handler r'.details]
      exact congrArg readHandler h
    rw [text, text, hhandler] at h
    exact shown_eq_of_details hl hl' hhandler (List.append_cancel_left h)
  · intro h
    rw [← text_shown r, ← text_shown r', h]

end Report

section exceptions

variable {m stack m₁ m₂ stack₁ stack₂ : Memory} {buf buf₁ buf₂ rsp₁ rsp₂ idt gdt num : ℕ}
  {cr2 cr3 cr2₁ cr3₁ cr2₂ cr3₂ : UInt64} {out out₁ out₂ text₁ text₂ : List UInt8}
  {h₁ h₂ : Handler} {address : Handler → UInt64}

theorem report_bounded (h : Handler) (m : Memory) (rsp : ℕ) (cr2 cr3 : UInt64) :
    ∀ l ∈ (h.report m rsp cr2 cr3).lines, l.Bounded := by
  simp only [Handler.report]
  exact pagetableLines_bounded m cr3.toNat 4

/-- Whatever two handlers print, the texts are the same if and only if the handlers are, and all
    the numbers that their reports show. -/
theorem reports_tell (hret₁ : (runHandler m₁ stack₁ buf₁ cr2₁ cr3₁ h₁ rsp₁ out₁).Returns
      (out₁ ++ text₁))
    (hret₂ : (runHandler m₂ stack₂ buf₂ cr2₂ cr3₂ h₂ rsp₂ out₂).Returns (out₂ ++ text₂)) :
    text₁ = text₂ ↔
      (h₁.report m₁ rsp₁ cr2₁ cr3₁).shown = (h₂.report m₂ rsp₂ cr2₂ cr3₂).shown := by
  have htext₁ := List.append_cancel_left (hret₁.unique (runHandler_returns _ _ _ _ _ _ _ _))
  have htext₂ := List.append_cancel_left (hret₂.unique (runHandler_returns _ _ _ _ _ _ _ _))
  rw [htext₁, htext₂]
  exact Report.text_eq_iff (report_bounded _ _ _ _ _) (report_bounded _ _ _ _ _)

/-- The report of a handler of an exception is about the program that has been interrupted: the
    address and the error code are what the processor has pushed. -/
theorem report_of_delivered {r r' : InterruptFrame} {err : UInt64} {m' : Memory}
    {x : ℕ × Handler} (hx : x ∈ interruptHandlers)
    (h : Delivered m idt gdt address r x.1 err x.2 m' r') (cr2 cr3 : UInt64) :
    (x.2.report m' r'.rsp.toNat cr2 cr3).text =
      (Report.mk x.2 err r.rip cr2 (pagetableLines m' cr3.toNat 4)).text := by
  have hsaved := h.saved
  have hnumbers : ∀ x ∈ interruptHandlers, x.2 = .generalProtectionFaultInterrupt ∨
      x.2 = .pageFaultHandler → pushesErrorCode x.1 = true ∧ x.2.takesErrorCode = true := by
    decide
  have hnumbers := hnumbers x hx
  have hpushed : pushesErrorCode x.1 = true ∧ x.2.takesErrorCode = true →
      UInt64.ofNat (m'.read 8 r'.rsp.toNat) = err ∧
      (frameAt m' (x.2.frame r'.rsp.toNat)).rip = r.rip := by
    rintro ⟨hpush, htakes⟩
    have herr := h.err hpush htakes
    rw [Handler.err, if_pos htakes, Option.some_inj] at herr
    rw [errorSize, if_pos hpush] at hsaved
    exact ⟨herr, by rw [Handler.frame, if_pos htakes, hsaved]⟩
  -- The handlers that print no numbers do not show them.
  refine (Report.text_shown _).symm.trans (Eq.trans (congrArg Report.text ?_) (Report.text_shown _))
  simp only [Handler.report]
  generalize pagetableLines m' cr3.toNat 4 = lines
  generalize x.2 = handler at hnumbers hpushed ⊢
  cases handler
  case generalProtectionFaultInterrupt =>
    obtain ⟨herr, hrip⟩ := hpushed (hnumbers (.inl rfl))
    rw [herr, hrip]
  case pageFaultHandler =>
    obtain ⟨herr, -⟩ := hpushed (hnumbers (.inr rfl))
    simp only [Report.shown, herr]
  all_goals simp only [Report.shown]

/-- In every run, an exception of a program is reported by the handler of its number: with the
    error code and the address at which the program was, where the report has them. -/
theorem exception_reported (hoff : gdt + 24 ≤ idt ∨ idt + 16 * 32 ≤ gdt)
    (haddress : ∀ h, Canonical (address h).toNat) (hrun : InterruptRun idt gdt address m)
    (r : InterruptFrame) (hrsp : 64 ≤ r.rsp.toNat) (hnum : num < 32)
    (err cr2 cr3 : UInt64) (stack : Memory) (buf : ℕ) (out : List UInt8) :
    ∃ h m' r', (num, h) ∈ interruptHandlers ∧
      deliver m (lidt idt) (gdt64Pointer gdt) r num err = some (m', r') ∧ r'.rip = address h ∧
      (runHandler m' stack buf cr2 cr3 h r'.rsp.toNat out).Returns
        (out ++ (Report.mk h err r.rip cr2 (pagetableLines m' cr3.toNat 4)).text) := by
  have hall : ∀ num < 32, ∃ x ∈ interruptHandlers, x.1 = num := by decide
  obtain ⟨x, hx, rfl⟩ := hall num hnum
  obtain ⟨m', r', hd⟩ := delivered_of_ready (ready_of_run hoff hrun) haddress hx r err hrsp
  refine ⟨x.2, m', r', hx, hd.delivered, hd.rip, ?_⟩
  rw [← report_of_delivered hx hd]
  exact runHandler_returns _ _ _ _ _ _ _ _

/-- A page fault at the address 0xDEAD000 of a program at 0x7E00. -/
theorem exception_reported_one :
    let m := (setupInterrupts memoryWithGdt 0x9000 (fun _ => 0xABCD) addressOne).1
    ∃ h m' r', (14, h) ∈ interruptHandlers ∧
      deliver m (lidt 0x9000) (gdt64Pointer 0x8000) programOne 14 2 = some (m', r') ∧
      r'.rip = addressOne h ∧
      (runHandler m' (fun _ => 0) 0x6FF00 0xDEAD000 0x1000 h r'.rsp.toNat []).Returns
        ([] ++ (Report.mk h 2 programOne.rip 0xDEAD000 (pagetableLines m' 0x1000 4)).text) :=
  exception_reported (.inl (by decide)) addressOne_canonical interruptRun_one programOne
    (by decide) (by decide) 2 0xDEAD000 0x1000 _ _ _

/-- Two page faults of which only the high bits of the error codes differ. -/
theorem reports_tell_one : ∃ text₁ text₂,
    (runHandler (fun _ => 0) (fun _ => 0) 0x6FF00 0xDEAD000 0x1000 .pageFaultHandler 0x6FFB0
      []).Returns ([] ++ text₁) ∧
    (runHandler (fun x => if x = 0x6FFB1 then 0x80 else 0) (fun _ => 0) 0x6FF00 0xDEAD000 0x1000
      .pageFaultHandler 0x6FFB0 []).Returns ([] ++ text₂) ∧
    (text₁ = text₂ ↔ (Handler.report .pageFaultHandler (fun _ => 0) 0x6FFB0 0xDEAD000 0x1000).shown =
      (Handler.report .pageFaultHandler (fun x => if x = 0x6FFB1 then 0x80 else 0) 0x6FFB0
        0xDEAD000 0x1000).shown) := by
  have h₁ := runHandler_returns (fun _ => 0) (fun _ => 0) 0x6FF00 0x6FFB0 0xDEAD000 0x1000 []
    .pageFaultHandler
  have h₂ := runHandler_returns (fun x => if x = 0x6FFB1 then 0x80 else 0) (fun _ => 0) 0x6FF00
    0x6FFB0 0xDEAD000 0x1000 [] .pageFaultHandler
  exact ⟨_, _, h₁, h₂, reports_tell h₁ h₂⟩

end exceptions

end Cboot
