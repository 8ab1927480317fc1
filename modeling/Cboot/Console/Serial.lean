import Cboot.Console.Text
import Cboot.Console.Vga
import Cboot.Disk.Ata

/-!
# The serial port

The driver of `serial.c`, for any device behind the ports, and the device that it is written for
(`Uart`), which shifts its characters out when it likes. Both outputs of `putc` come together
here: the lists of characters of the other modules are what `putc` has been called with.

* `initSerial_spec`: the driver tests the device by sending itself a character. It passes if and
  only if the device shifts it out before the very next access, and if not, the device is left
  sending to itself;
* `serialWriteChar_sent`: a character is only given to a device that has none left to send, so
  that none is lost, and all are sent in order;
* `puts_printed`: if the test has passed, all that is printed gets to the screen and to the line,
  and if not, nothing gets to the line;
* `puts_hangs`: if the device does not send at all, the program waits for it at the first
  character that it prints.
-/

namespace Cboot

open Fueled

/-! ## The driver -/

section driver

variable {δ : Type} (io : Ports δ)

/-- `init_serial`, with its result. -/
def initSerial (d : δ) : ℕ × δ :=
  let port := 0x3F8
  let d := io.ioOut8 d (port + 1) 0x00
  let d := io.ioOut8 d (port + 3) 0x80
  let d := io.ioOut8 d (port + 0) 0x03
  let d := io.ioOut8 d (port + 1) 0x00
  let d := io.ioOut8 d (port + 3) 0x03
  let d := io.ioOut8 d (port + 2) 0xC7
  let d := io.ioOut8 d (port + 4) 0x0B
  let d := io.ioOut8 d (port + 4) 0x1E
  let d := io.ioOut8 d (port + 0) 0xAE
  let (byte, d) := io.ioIn8 d (port + 0)
  if byte ≠ 0xAE then (1, d) else (0, io.ioOut8 d (port + 4) 0x0F)

/-- The bit 5 of the line status. -/
def isTransmitEmpty (d : δ) : UInt8 × δ :=
  let (status, d) := io.ioIn8 d (0x3F8 + 5)
  (status &&& 0x20, d)

/-- A round of the loop of `serial_write_char`. -/
def transmitRound (d : δ) : Fueled (δ ⊕ δ) :=
  let (empty, d) := isTransmitEmpty io d
  if empty = 0 then pure (.inl d) else pure (.inr d)

/-- `serial_write_char` -/
def serialWriteChar (d : δ) (a : UInt8) : Fueled δ := do
  let d ← .loop (transmitRound io) d
  pure (io.ioOut8 d 0x3F8 a)

/-- `putc`, with the screen and the serial port. -/
def putcOutputs (s : Console × δ) (c : UInt8) : Fueled (Console × δ) := do
  let console := s.1.drawChar c
  let d ← serialWriteChar io s.2 c
  pure (console, d)

/-- A round of the loop of `puts`. -/
def putsOutputsRound (m : Memory) :
    ℕ × Console × δ → Fueled (ℕ × Console × δ ⊕ Console × δ)
  | (p, s) => if m p ≠ 0 then do
      let s ← putcOutputs io s (m p)
      pure (.inl (p + 1, s))
    else pure (.inr s)

/-- `puts`, with the screen and the serial port. -/
def putsOutputs (m : Memory) (p : ℕ) (s : Console × δ) : Fueled (Console × δ) :=
  .loop (putsOutputsRound io m) (p, s)

/-- Giving a text to `putc`, one character after the other. -/
def emit (s : Console × δ) (text : List UInt8) : Fueled (Console × δ) :=
  text.foldlM (putcOutputs io) s

end driver

/-! ## The device -/

/-- A serial port, which is polled by its driver. -/
structure Uart where
  /-- Whether a character is shifted out in front of an access. -/
  shifts : ℕ → Bool
  /-- The other bits of the line status, access by access. -/
  status : ℕ → UInt8
  time : ℕ
  lineControl : UInt8
  modemControl : UInt8
  divisorLow : UInt8
  divisorHigh : UInt8
  /-- The characters to be shifted out. -/
  pending : List UInt8
  /-- The character that has been received, or zero. -/
  received : UInt8
  /-- The characters that have been sent. -/
  line : List UInt8
  /-- The characters that there was no room for. -/
  lost : List UInt8

namespace Uart

/-- The divisor is behind the ports of the data. -/
def Latched (u : Uart) : Prop := u.lineControl &&& 0x80 ≠ 0

/-- The device sends to itself. -/
def Loopback (u : Uart) : Prop := u.modemControl &&& 0x10 ≠ 0

instance (u : Uart) : Decidable u.Latched := inferInstanceAs (Decidable (_ ≠ _))
instance (u : Uart) : Decidable u.Loopback := inferInstanceAs (Decidable (_ ≠ _))

/-- The first of the characters to be shifted out goes to the line, or back to the receiver. -/
def shiftOut (u : Uart) : Uart :=
  match u.pending with
  | [] => u
  | c :: pending =>
    if u.Loopback then { u with pending, received := c } else { u with pending, line := u.line ++ [c] }

/-- What may happen in front of an access. -/
def elapse (u : Uart) : Uart :=
  let v := if u.shifts u.time then u.shiftOut else u
  { v with time := u.time + 1 }

/-- The line status: the bit 5 is set if there is nothing to be shifted out. -/
def lineStatus (u : Uart) : UInt8 :=
  (u.status u.time &&& ~~~0x20) ||| (if u.pending = [] then 0x20 else 0)

/-- Reading a port: the data port, or the line status. -/
def ioIn8 (u : Uart) (port : UInt16) : UInt8 × Uart :=
  let u := u.elapse
  if port = 0x3F8 then (if u.Latched then u.divisorLow else u.received, u)
  else if port = 0x3FD then (u.lineStatus, u)
  else (0, u)

/-- There is room for 16 characters. -/
def ioOut8 (u : Uart) (port : UInt16) (data : UInt8) : Uart :=
  let u := u.elapse
  if port = 0x3F8 then
    if u.Latched then { u with divisorLow := data }
    else if u.pending.length < 16 then { u with pending := u.pending ++ [data] }
    else { u with lost := u.lost ++ [data] }
  else if port = 0x3F9 then if u.Latched then { u with divisorHigh := data } else u
  else if port = 0x3FA then
    let u := if data &&& 0x02 ≠ 0 then { u with received := 0 } else u
    if data &&& 0x04 ≠ 0 then { u with pending := [] } else u
  else if port = 0x3FB then { u with lineControl := data }
  else if port = 0x3FC then { u with modemControl := data }
  else u

/-- The ports of a machine with the device. There are no words to be read. -/
def ports : Ports Uart where
  ioIn8 := ioIn8
  ioIn16 u _ := (0, u)
  ioOut8 := ioOut8

/-- The device always goes on to shift characters out. -/
def Live (u : Uart) : Prop := ∀ n, ∃ k, n ≤ k ∧ u.shifts k = true

/-! ## The registers -/

section registers

variable {u v w : Uart}

/-- From `u` to `v`, the only characters that got to the line are of those that were to be shifted
    out, and so are those that still are. Nothing else changes but what is received. -/
structure Evolves (u v : Uart) : Prop where
  shifts : v.shifts = u.shifts
  status : v.status = u.status
  lost : v.lost = u.lost
  line : ∃ sent, v.line = u.line ++ sent ∧ (sent ++ v.pending).Sublist u.pending

theorem Evolves.refl (u : Uart) : Evolves u u :=
  ⟨rfl, rfl, rfl, [], (List.append_nil _).symm, List.Sublist.refl _⟩

theorem Evolves.trans (h : Evolves u v) (h' : Evolves v w) : Evolves u w where
  shifts := h'.shifts.trans h.shifts
  status := h'.status.trans h.status
  lost := h'.lost.trans h.lost
  line := by
    obtain ⟨sent, hline, hsub⟩ := h.line
    obtain ⟨sent', hline', hsub'⟩ := h'.line
    refine ⟨sent ++ sent', by rw [hline', hline, List.append_assoc], ?_⟩
    rw [List.append_assoc]
    exact ((List.Sublist.refl sent).append hsub').trans hsub

/-- Only the data, and the time, are not the same after what may happen in front of an access. -/
theorem elapse_evolves (u : Uart) : Evolves u u.elapse := by
  rw [elapse, shiftOut]
  split
  · split
    · exact ⟨rfl, rfl, rfl, [], (List.append_nil _).symm, List.Sublist.refl _⟩
    · rename_i c pending hpending
      split
      · refine ⟨rfl, rfl, rfl, [], (List.append_nil _).symm, ?_⟩
        rw [hpending]
        exact List.sublist_cons_self c pending
      · refine ⟨rfl, rfl, rfl, [c], rfl, ?_⟩
        rw [hpending]
        exact List.Sublist.refl _
  · exact ⟨rfl, rfl, rfl, [], (List.append_nil _).symm, List.Sublist.refl _⟩

@[simp] theorem elapse_time (u : Uart) : u.elapse.time = u.time + 1 := rfl

@[simp] theorem elapse_lineControl (u : Uart) : u.elapse.lineControl = u.lineControl := by
  simp only [elapse, shiftOut]
  grind

@[simp] theorem elapse_modemControl (u : Uart) : u.elapse.modemControl = u.modemControl := by
  simp only [elapse, shiftOut]
  grind

@[simp] theorem elapse_divisor (u : Uart) :
    u.elapse.divisorLow = u.divisorLow ∧ u.elapse.divisorHigh = u.divisorHigh := by
  simp only [elapse, shiftOut]
  grind

/-- With nothing to be shifted out, nothing happens. -/
theorem elapse_of_pending_nil (h : u.pending = []) : u.elapse = { u with time := u.time + 1 } := by
  have hshift : u.shiftOut = u := by rw [shiftOut, h]
  rw [elapse, hshift, ite_self]

theorem ioOut8_data (h : ¬u.Latched) (hroom : u.pending = []) (c : UInt8) :
    u.ioOut8 0x3F8 c = { u with time := u.time + 1, pending := [c] } := by
  have hlatched : ¬Latched { u with time := u.time + 1 } := h
  rw [ioOut8, elapse_of_pending_nil hroom, if_pos rfl, if_neg hlatched]
  simp only [hroom]
  rfl

theorem ioOut8_lineControl (u : Uart) (data : UInt8) :
    u.ioOut8 0x3FB data = { u.elapse with lineControl := data } := rfl

theorem ioOut8_modemControl (u : Uart) (data : UInt8) :
    u.ioOut8 0x3FC data = { u.elapse with modemControl := data } := rfl

theorem ioOut8_modemControl_of_nil (h : u.pending = []) (data : UInt8) :
    u.ioOut8 0x3FC data = { u with time := u.time + 1, modemControl := data } := by
  rw [ioOut8_modemControl, elapse_of_pending_nil h]

theorem ioOut8_fifo (u : Uart) :
    u.ioOut8 0x3FA 0xC7 = { u.elapse with received := 0, pending := [] } := rfl

theorem ioOut8_divisorLow (h : u.Latched) (data : UInt8) :
    u.ioOut8 0x3F8 data = { u.elapse with divisorLow := data } := by
  have hlatched : u.elapse.Latched := by rwa [Latched, elapse_lineControl]
  rw [ioOut8, if_pos rfl, if_pos hlatched]

theorem ioOut8_divisorHigh (u : Uart) (data : UInt8) : u.ioOut8 0x3F9 data =
    if u.Latched then { u.elapse with divisorHigh := data } else u.elapse := by
  have hlatched : u.elapse.Latched ↔ u.Latched := by rw [Latched, elapse_lineControl, Latched]
  rw [ioOut8, if_neg (by decide), if_pos rfl]
  exact if_congr hlatched rfl rfl

end registers

/-! ## Initialising -/

section initialising

variable {u v : Uart}

/-- The device has been set up: its line has the format and the speed of the driver. -/
structure SetUp (u : Uart) : Prop where
  format : u.lineControl = 0x03
  speed : u.divisorLow = 0x03 ∧ u.divisorHigh = 0x00

theorem SetUp.not_latched (h : SetUp u) : ¬u.Latched := by
  rw [Latched, h.format]
  decide

theorem latched_of_lineControl (h : u.lineControl = 0x80) : u.Latched := by
  rw [Latched, h]
  decide

/-- An access that has an effect on other registers. -/
theorem evolves_of_elapse (hshifts : v.shifts = u.elapse.shifts)
    (hstatus : v.status = u.elapse.status) (hlost : v.lost = u.elapse.lost)
    (hline : v.line = u.elapse.line) (hpending : v.pending.Sublist u.elapse.pending) :
    Evolves u v :=
  (elapse_evolves u).trans
    ⟨hshifts, hstatus, hlost, [], by rw [hline, List.append_nil], hpending⟩

/-- The first six accesses of `init_serial`: whatever the device has been doing, it is set up, and
    nothing is left to be sent. -/
theorem setUp_spec (u : Uart) : ∃ v,
    (((((u.ioOut8 0x3F9 0x00).ioOut8 0x3FB 0x80).ioOut8 0x3F8 0x03).ioOut8 0x3F9 0x00).ioOut8
      0x3FB 0x03).ioOut8 0x3FA 0xC7 = v ∧ SetUp v ∧ Evolves u v ∧ v.time = u.time + 6 ∧
      v.pending = [] ∧ v.received = 0 := by
  -- The first one disables interrupts, unless the divisor is behind the port.
  obtain ⟨v₁, h₁, hev₁, ht₁⟩ : ∃ v, u.ioOut8 0x3F9 0x00 = v ∧ Evolves u v ∧
      v.time = u.time + 1 := by
    refine ⟨_, rfl, ?_, ?_⟩
    all_goals
      rw [ioOut8_divisorHigh]
      split
    · exact evolves_of_elapse rfl rfl rfl rfl (List.Sublist.refl _)
    · exact evolves_of_elapse rfl rfl rfl rfl (List.Sublist.refl _)
    · rfl
    · rfl
  obtain ⟨v₂, e₂⟩ : ∃ v, v₁.ioOut8 0x3FB 0x80 = v := ⟨_, rfl⟩
  have h₂ := e₂.symm.trans (ioOut8_lineControl v₁ 0x80)
  have hlatched₂ : v₂.Latched := latched_of_lineControl (by rw [h₂])
  obtain ⟨v₃, e₃⟩ : ∃ v, v₂.ioOut8 0x3F8 0x03 = v := ⟨_, rfl⟩
  have h₃ := e₃.symm.trans (ioOut8_divisorLow hlatched₂ 0x03)
  have hlatched₃ : v₃.Latched := latched_of_lineControl (by rw [h₃, elapse_lineControl, h₂])
  obtain ⟨v₄, e₄⟩ : ∃ v, v₃.ioOut8 0x3F9 0x00 = v := ⟨_, rfl⟩
  have h₄ := e₄.symm.trans ((ioOut8_divisorHigh v₃ 0x00).trans (if_pos hlatched₃))
  obtain ⟨v₅, e₅⟩ : ∃ v, v₄.ioOut8 0x3FB 0x03 = v := ⟨_, rfl⟩
  have h₅ := e₅.symm.trans (ioOut8_lineControl v₄ 0x03)
  have hev : Evolves u { v₅.elapse with received := 0, pending := [] } := by
    refine hev₁.trans (.trans (v := v₂) ?_ (.trans (v := v₃) ?_ (.trans (v := v₄) ?_
      (.trans (v := v₅) ?_ ?_))))
    · exact h₂ ▸ evolves_of_elapse rfl rfl rfl rfl (List.Sublist.refl _)
    · exact h₃ ▸ evolves_of_elapse rfl rfl rfl rfl (List.Sublist.refl _)
    · exact h₄ ▸ evolves_of_elapse rfl rfl rfl rfl (List.Sublist.refl _)
    · exact h₅ ▸ evolves_of_elapse rfl rfl rfl rfl (List.Sublist.refl _)
    · exact evolves_of_elapse rfl rfl rfl rfl (List.nil_sublist _)
  refine ⟨{ v₅.elapse with received := 0, pending := [] }, ?_, ⟨?_, ?_⟩, hev, ?_, rfl, rfl⟩
  · rw [h₁, e₂, e₃, e₄, e₅, ioOut8_fifo]
  · change v₅.elapse.lineControl = 0x03
    rw [elapse_lineControl, h₅]
  · change v₅.elapse.divisorLow = 0x03 ∧ v₅.elapse.divisorHigh = 0x00
    simp only [elapse_divisor, h₅, h₄, h₃, and_self]
  · change v₅.elapse.time = u.time + 6
    simp only [elapse_time, h₅, h₄, h₃, h₂, ht₁]

/-- Whatever the device has been doing, `init_serial` sets it up. The character that the driver
    sends to itself never gets to the line; if it has not come back at the very next access, the
    driver leaves the device as it is, with the character in it. -/
theorem initSerial_spec (u : Uart) : ∃ v sent,
    initSerial ports u = (if u.shifts (u.time + 9) = true then 0 else 1, v) ∧ SetUp v ∧
      v.modemControl = (if u.shifts (u.time + 9) = true then 0x0F else 0x1E) ∧
      v.pending = (if u.shifts (u.time + 9) = true then [] else [0xAE]) ∧ u.time ≤ v.time ∧
      v.shifts = u.shifts ∧ v.lost = u.lost ∧ v.line = u.line ++ sent ∧
      sent.Sublist u.pending := by
  obtain ⟨v, hv, hsetup, hev, htime, hpending, hreceived⟩ := setUp_spec u
  obtain ⟨sent, hline, hsub⟩ := hev.line
  rw [hpending, List.append_nil] at hsub
  -- Nothing is pending, so that nothing happens in front of the next three accesses.
  have h₇ := ioOut8_modemControl_of_nil hpending 0x0B
  have h₈ := ioOut8_modemControl_of_nil (u := { v with time := v.time + 1, modemControl := 0x0B })
    hpending 0x1E
  have h₉ := ioOut8_data (u := { v with time := v.time + 2, modemControl := 0x1E })
    hsetup.not_latched hpending 0xAE
  obtain ⟨w, hw⟩ : ∃ w : Uart, w =
      { v with time := v.time + 3, modemControl := 0x1E, pending := [0xAE] } := ⟨_, rfl⟩
  have hnot : ¬w.elapse.Latched := by
    rw [Latched, elapse_lineControl, hw]
    exact hsetup.not_latched
  have hread : ioIn8 w 0x3F8 = (w.elapse.received, w.elapse) := by
    rw [ioIn8, if_pos rfl, if_neg hnot]
  have hstart : initSerial ports u = if w.elapse.received ≠ 0xAE then (1, w.elapse)
      else (0, w.elapse.ioOut8 0x3FC 0x0F) := by
    have hports : ((((((((u.ioOut8 0x3F9 0x00).ioOut8 0x3FB 0x80).ioOut8 0x3F8 0x03).ioOut8 0x3F9
        0x00).ioOut8 0x3FB 0x03).ioOut8 0x3FA 0xC7).ioOut8 0x3FC 0x0B).ioOut8 0x3FC 0x1E).ioOut8
        0x3F8 0xAE = w := by
      rw [hv, h₇, h₈, h₉, hw]
    rw [← hports] at hread ⊢
    exact congrArg (fun r : UInt8 × Uart => if r.1 ≠ 0xAE then (1, r.2)
      else (0, r.2.ioOut8 0x3FC 0x0F)) hread
  have htime' : w.time = u.time + 9 := by
    rw [hw]
    change v.time + 3 = _
    rw [htime]
  have hshifts : w.shifts (u.time + 9) = u.shifts (u.time + 9) := by
    rw [hw]
    exact congrFun hev.shifts _
  have hlater : ∀ k, u.time ≤ v.time + k := fun k => by omega
  by_cases hpass : u.shifts (u.time + 9) = true
  · have helapse : w.elapse = { w with time := w.time + 1, pending := [], received := 0xAE } := by
      have hloop : w.Loopback := by
        rw [Loopback, hw]
        change (0x1E : UInt8) &&& 0x10 ≠ 0
        decide
      have hback : w.shiftOut = { w with pending := [], received := 0xAE } := by
        rw [shiftOut]
        simp only [hw]
        exact if_pos (hw ▸ hloop)
      rw [elapse, htime', hshifts, if_pos hpass, hback]
    rw [hstart, helapse, if_neg (not_not_intro rfl)]
    simp only [if_pos hpass]
    refine ⟨_, sent, rfl, ?_⟩
    rw [ioOut8_modemControl, elapse_of_pending_nil rfl, hw]
    exact ⟨⟨hsetup.format, hsetup.speed⟩, rfl, rfl, hlater 5, hev.shifts, hev.lost, hline, hsub⟩
  · have helapse : w.elapse = { w with time := w.time + 1 } := by
      rw [elapse, htime', hshifts, if_neg hpass]
    have hne : w.elapse.received ≠ 0xAE := by
      rw [helapse, hw]
      change v.received ≠ 0xAE
      rw [hreceived]
      decide
    rw [hstart, if_pos hne, helapse, hw]
    simp only [if_neg hpass]
    exact ⟨_, sent, rfl, ⟨hsetup.format, hsetup.speed⟩, rfl, rfl, hlater 4, hev.shifts, hev.lost,
      hline, hsub⟩

end initialising

/-! ## Sending -/

section sending

variable {u v w : Uart} {c : UInt8} {text text' : List UInt8}

/-- The characters that have got to the line, or will. -/
def output (u : Uart) : List UInt8 := if u.Loopback then u.line else u.line ++ u.pending

/-- What may happen in front of an access takes no character away from the line. -/
theorem elapse_output (u : Uart) : u.elapse.output = u.output := by
  have hloop : u.elapse.Loopback ↔ u.Loopback := by rw [Loopback, elapse_modemControl, Loopback]
  by_cases h : u.Loopback
  · rw [output, if_pos (hloop.2 h), output, if_pos h, elapse, shiftOut]
    split
    · split <;> rfl
    · rfl
  · rw [output, if_neg (hloop.not.2 h), output, if_neg h, elapse, shiftOut]
    split
    · split
      · rfl
      · rename_i c pending hpending
        rw [hpending]
        exact List.append_assoc _ [c] pending
    · rfl

/-- From `u` to `v`, the text has been given to the device. -/
structure Sent (u v : Uart) (text : List UInt8) : Prop where
  lineControl : v.lineControl = u.lineControl
  modemControl : v.modemControl = u.modemControl
  shifts : v.shifts = u.shifts
  lost : v.lost = u.lost
  output : v.output = u.output ++ if u.Loopback then [] else text

theorem Sent.refl (u : Uart) : Sent u u [] := by
  refine ⟨rfl, rfl, rfl, rfl, ?_⟩
  rw [ite_self, List.append_nil]

theorem Sent.trans (h : Sent u v text) (h' : Sent v w text') : Sent u w (text ++ text') where
  lineControl := h'.lineControl.trans h.lineControl
  modemControl := h'.modemControl.trans h.modemControl
  shifts := h'.shifts.trans h.shifts
  lost := h'.lost.trans h.lost
  output := by
    have hloop : v.Loopback ↔ u.Loopback := by rw [Loopback, h.modemControl, Loopback]
    rw [h'.output, h.output, List.append_assoc]
    congr 1
    by_cases hu : u.Loopback
    · rw [if_pos hu, if_pos (hloop.2 hu), if_pos hu, List.append_nil]
    · rw [if_neg hu, if_neg (hloop.not.2 hu), if_neg hu]

theorem sent_elapse (u : Uart) : Sent u u.elapse [] := by
  obtain ⟨hshifts, -, hlost, -⟩ := elapse_evolves u
  refine ⟨elapse_lineControl u, elapse_modemControl u, hshifts, hlost, ?_⟩
  rw [ite_self, List.append_nil, elapse_output]

theorem Sent.not_latched (h : Sent u v text) (hu : ¬u.Latched) : ¬v.Latched := by
  rwa [Latched, h.lineControl]

theorem Sent.live (h : Sent u v text) (hu : u.Live) : v.Live := by
  rwa [Live, h.shifts]

/-- The device is given a character when it has nothing left. -/
theorem sent_ioOut8 (h : ¬u.Latched) (hpending : u.pending = []) (c : UInt8) :
    Sent u (u.ioOut8 0x3F8 c) [c] := by
  rw [ioOut8_data h hpending]
  refine ⟨rfl, rfl, rfl, rfl, ?_⟩
  by_cases hloop : u.Loopback
  · rw [if_pos hloop, output, output, if_pos hloop, List.append_nil]
    exact if_pos hloop
  · rw [if_neg hloop, output, output, if_neg hloop, hpending, List.append_nil]
    exact if_neg hloop

/-- The bit that is tested tells whether there is nothing left. -/
theorem lineStatus_and (u : Uart) : u.lineStatus &&& 0x20 = 0 ↔ u.pending ≠ [] := by
  have hmask : ∀ s x b : UInt8, ((s &&& ~~~b) ||| x) &&& b = x &&& b := by
    intro s x b
    refine UInt8.toBitVec_inj.1 ?_
    ext i hi
    simp only [UInt8.toBitVec_and, UInt8.toBitVec_or, UInt8.toBitVec_not, BitVec.getElem_and,
      BitVec.getElem_or, BitVec.getElem_not]
    grind
  rw [lineStatus, hmask]
  split
  · simp_all
  · simp_all

/-- A round of the loop polls the device once. -/
theorem transmitRound_eq (u : Uart) : transmitRound ports u =
    if u.elapse.pending = [] then pure (.inr u.elapse) else pure (.inl u.elapse) := by
  have hread : isTransmitEmpty ports u = (u.elapse.lineStatus &&& 0x20, u.elapse) := rfl
  rw [transmitRound, hread]
  by_cases h : u.elapse.pending = []
  · rw [if_pos h]
    exact if_neg fun hz => (lineStatus_and _).1 hz h
  · rw [if_neg h]
    exact if_pos ((lineStatus_and _).2 h)

theorem elapse_pending (u : Uart) :
    u.elapse.pending = if u.shifts u.time = true then u.pending.tail else u.pending := by
  rw [elapse, shiftOut]
  split
  · split
    · rename_i h
      rw [h, List.tail_nil]
    · rename_i h
      rw [h]
      split <;> rfl
  · rfl

/-- A round after which there is still something to be sent. -/
theorem loop_elapse (h : u.elapse.pending ≠ [])
    (hv : ∃ v, (loop (transmitRound ports) u.elapse).Returns v ∧ Sent u.elapse v [] ∧
      v.pending = []) :
    ∃ v, (loop (transmitRound ports) u).Returns v ∧ Sent u v [] ∧ v.pending = [] := by
  obtain ⟨v, hret, hsent, hpending⟩ := hv
  have hround : (transmitRound ports u).Returns (.inl u.elapse) := by
    rw [transmitRound_eq, if_neg h]
    exact returns_pure_iff.2 rfl
  exact ⟨v, hround.loop_iff.2 hret, (sent_elapse u).trans hsent, hpending⟩

theorem loop_of_elapse_nil (h : u.elapse.pending = []) :
    ∃ v, (loop (transmitRound ports) u).Returns v ∧ Sent u v [] ∧ v.pending = [] := by
  refine ⟨u.elapse, Returns.loop_done ?_, sent_elapse u, h⟩
  rw [transmitRound_eq, if_pos h]
  exact returns_pure_iff.2 rfl

/-- The loop ends when the device has nothing left, which a live one gets to. -/
theorem poll_returns (hlive : u.Live) :
    ∃ v, (loop (transmitRound ports) u).Returns v ∧ Sent u v [] ∧ v.pending = [] := by
  -- By induction on the characters that are left, and then on the time up to the next shift.
  have key : ∀ n d (u : Uart), u.Live → u.pending.length = n → u.shifts (u.time + d) = true →
      ∃ v, (loop (transmitRound ports) u).Returns v ∧ Sent u v [] ∧ v.pending = [] := by
    intro n
    induction n with
    | zero =>
      intro d u _ hn _
      refine loop_of_elapse_nil ?_
      rw [elapse_pending, List.length_eq_zero_iff.1 hn, List.tail_nil, ite_self]
    | succ n ih =>
      have hshifted : ∀ u : Uart, u.Live → u.pending.length = n + 1 → u.shifts u.time = true →
          ∃ v, (loop (transmitRound ports) u).Returns v ∧ Sent u v [] ∧ v.pending = [] := by
        intro u hlive hn hnow
        by_cases hnil : u.elapse.pending = []
        · exact loop_of_elapse_nil hnil
        have hlive' := (sent_elapse u).live hlive
        obtain ⟨k, hk, hshift⟩ := hlive' u.elapse.time
        refine loop_elapse hnil (ih (k - u.elapse.time) _ hlive' ?_ ?_)
        · rw [elapse_pending, if_pos hnow, List.length_tail, hn, Nat.add_sub_cancel]
        · rwa [Nat.add_sub_cancel' hk]
      intro d
      induction d with
      | zero => exact hshifted
      | succ d ihd =>
        intro u hlive hn hshift
        by_cases hnow : u.shifts u.time = true
        · exact hshifted u hlive hn hnow
        have hsame : u.elapse.pending = u.pending := by rw [elapse_pending, if_neg hnow]
        refine loop_elapse ?_ (ihd _ ((sent_elapse u).live hlive) ?_ ?_)
        · rw [hsame]
          exact List.ne_nil_of_length_eq_add_one hn
        · rw [hsame, hn]
        · rw [(sent_elapse u).shifts, elapse_time, Nat.add_right_comm, Nat.add_assoc]
          exact hshift
  obtain ⟨k, hk, hshift⟩ := hlive u.time
  exact key _ (k - u.time) u hlive rfl (by rwa [Nat.add_sub_cancel' hk])

/-- A character is given to a device that has nothing left, and nothing is lost. -/
theorem serialWriteChar_sent (hlive : u.Live) (hu : ¬u.Latched) (c : UInt8) :
    ∃ v, (serialWriteChar ports u c).Returns v ∧ Sent u v [c] := by
  obtain ⟨v, hret, hsent, hpending⟩ := poll_returns hlive
  refine ⟨_, ?_, hsent.trans (sent_ioOut8 (hsent.not_latched hu) hpending c)⟩
  rw [serialWriteChar, hret.bind_iff]
  exact returns_pure_iff.2 rfl

/-- A text is drawn and sent, character by character. -/
theorem emit_sent (hlive : u.Live) (hu : ¬u.Latched) (console : Console) (text : List UInt8) :
    ∃ v, (emit ports (console, u) text).Returns (text.foldl Console.drawChar console, v) ∧
      Sent u v text := by
  induction text generalizing u console with
  | nil => exact ⟨u, returns_pure_iff.2 rfl, Sent.refl u⟩
  | cons c text ih =>
    obtain ⟨v, hret, hsent⟩ := serialWriteChar_sent hlive hu c
    obtain ⟨w, hrest, hsent'⟩ := ih (hsent.live hlive) (hsent.not_latched hu) (console.drawChar c)
    refine ⟨w, ?_, hsent.trans hsent'⟩
    have hputc : (putcOutputs ports (console, u) c).Returns (console.drawChar c, v) := by
      rw [putcOutputs, hret.bind_iff]
      exact returns_pure_iff.2 rfl
    rw [emit, List.foldlM_cons, hputc.bind_iff]
    exact hrest

/-- The device has stopped shifting characters out. -/
def Dead (u : Uart) : Prop := ∀ k, u.time ≤ k → u.shifts k = false

/-- A device that has stopped with something left is polled for ever. -/
theorem serialWriteChar_diverges (hdead : u.Dead) (hpending : u.pending ≠ []) (c : UInt8) :
    (serialWriteChar ports u c).Diverges := by
  have hloop : (loop (transmitRound ports) u).Diverges := by
    refine diverges_loop (I := fun u => u.Dead ∧ u.pending ≠ []) ⟨hdead, hpending⟩ ?_
    rintro u ⟨hdead, hpending⟩
    have hnow : ¬u.shifts u.time = true := by
      rw [hdead u.time le_rfl]
      decide
    have hsame : u.elapse.pending = u.pending := by rw [elapse_pending, if_neg hnow]
    refine ⟨u.elapse, ?_, fun k hk => ?_, hsame ▸ hpending⟩
    · rw [transmitRound_eq, if_neg (hsame ▸ hpending)]
      exact returns_pure_iff.2 rfl
    · rw [(sent_elapse u).shifts]
      exact hdead k (Nat.le_of_succ_le hk)
  refine diverges_iff.2 fun v hv => ?_
  obtain ⟨w, hw, -⟩ := returns_bind_iff.1 hv
  exact diverges_iff.1 hloop w hw

end sending

end Uart

/-! ## The outputs -/

section outputs

variable {δ : Type} {io : Ports δ} {m : Memory} {p : ℕ} {str : List UInt8} {s s' : Console × δ}

/-- On any device, `puts` gives its string to `putc`, and ends if and only if this does. -/
theorem putsOutputs_returns_iff (h : CString m p str) :
    (putsOutputs io m p s).Returns s' ↔ (emit io s str).Returns s' := by
  induction str generalizing p s with
  | nil =>
    have hz : m p = 0 := h
    have hround : (putsOutputsRound io m (p, s)).Returns (.inr s) := by
      rw [putsOutputsRound, if_neg (not_not_intro hz)]
      exact returns_pure_iff.2 rfl
    constructor
    · exact fun hs => returns_pure_iff.2 (hs.unique (Returns.loop_done hround))
    · intro hs
      rw [returns_pure_iff.1 hs]
      exact Returns.loop_done hround
  | cons c str ih =>
    have hround : putsOutputsRound io m (p, s) =
        putcOutputs io s c >>= fun s => pure (.inl (p + 1, s)) := by
      rw [putsOutputsRound, h.1, if_pos h.2.1]
    rw [putsOutputs, returns_loop_iff, hround, emit, List.foldlM_cons]
    constructor
    · rintro (hdone | ⟨s₁, hnext, hrest⟩)
      · obtain ⟨s₁, -, hdone⟩ := returns_bind_iff.1 hdone
        exact absurd (returns_pure_iff.1 hdone) (by simp)
      · obtain ⟨s₂, hputc, hnext⟩ := returns_bind_iff.1 hnext
        obtain rfl := Sum.inl.inj (returns_pure_iff.1 hnext)
        exact hputc.bind_iff.2 ((ih h.2.2).1 hrest)
    · intro hs
      obtain ⟨s₂, hputc, hrest⟩ := returns_bind_iff.1 hs
      exact .inr ⟨(p + 1, s₂), hputc.bind_iff.2 (returns_pure_iff.2 rfl), (ih h.2.2).2 hrest⟩

/-- What has become of the serial port after the program has initialised it and printed a text:
    if the test has passed, the text follows on the line what had been left to be sent, and
    otherwise nothing of it does. -/
structure Printed (u : Uart) (r : ℕ) (w : Uart) (text : List UInt8) : Prop where
  lost : w.lost = u.lost
  tested : r = 0 ↔ u.shifts (u.time + 9) = true
  line : ∃ sent, sent.Sublist u.pending ∧
    if r = 0 then w.line ++ w.pending = u.line ++ sent ++ text else w.line = u.line ++ sent

/-- Whatever the device has been doing before, a string that is printed after `init_serial` is
    drawn on the screen, and gets to the line if the test has passed. -/
theorem puts_printed {u : Uart} (hlive : u.Live) (console : Console) (h : CString m p str) :
    ∃ r v w, initSerial Uart.ports u = (r, v) ∧
      (putsOutputs Uart.ports m p (console, v)).Returns (str.foldl Console.drawChar console, w) ∧
      Printed u r w str := by
  obtain ⟨v, sent, hinit, hsetup, hmodem, hpending, -, hshifts, hlost, hline, hsub⟩ :=
    Uart.initSerial_spec u
  have hlive' : v.Live := by rwa [Uart.Live, hshifts]
  obtain ⟨w, hret, hsent⟩ := Uart.emit_sent hlive' hsetup.not_latched console str
  refine ⟨_, v, w, hinit, (putsOutputs_returns_iff h).2 hret, hsent.lost.trans hlost, by simp, sent,
    hsub, ?_⟩
  have houtput := hsent.output
  by_cases hpass : u.shifts (u.time + 9) = true
  · simp only [if_pos hpass] at hmodem hpending ⊢
    have hloop : ¬v.Loopback := by
      rw [Uart.Loopback, hmodem]
      decide
    have hloop' : ¬w.Loopback := by rwa [Uart.Loopback, hsent.modemControl]
    rw [Uart.output, if_neg hloop', Uart.output, if_neg hloop, if_neg hloop, hpending,
      List.append_nil, hline] at houtput
    exact houtput
  · simp only [if_neg hpass] at hmodem hpending ⊢
    have hloop : v.Loopback := by
      rw [Uart.Loopback, hmodem]
      decide
    have hloop' : w.Loopback := by rwa [Uart.Loopback, hsent.modemControl]
    rw [Uart.output, if_pos hloop', Uart.output, if_pos hloop, if_pos hloop, List.append_nil,
      hline] at houtput
    exact houtput

/-- With a device that has stopped, the program does not get past its first character. -/
theorem puts_hangs {u : Uart} (hdead : u.Dead) (console : Console) (h : CString m p str)
    (hne : str ≠ []) : ∃ v, initSerial Uart.ports u = (1, v) ∧
      (putsOutputs Uart.ports m p (console, v)).Diverges := by
  obtain ⟨v, sent, hinit, -, -, hpending, htime, hshifts, -, -, -⟩ := Uart.initSerial_spec u
  have hfails : ¬u.shifts (u.time + 9) = true := by
    rw [hdead _ (Nat.le_add_right _ _)]
    decide
  simp only [if_neg hfails] at hinit hpending
  refine ⟨v, hinit, diverges_iff.2 fun s hs => ?_⟩
  obtain ⟨c, str, rfl⟩ := List.exists_cons_of_ne_nil hne
  rw [putsOutputs_returns_iff h, emit, List.foldlM_cons] at hs
  obtain ⟨s₁, hputc, -⟩ := returns_bind_iff.1 hs
  obtain ⟨w, hwrite, -⟩ := returns_bind_iff.1 hputc
  have hdead' : v.Dead := fun k hk => by
    rw [hshifts]
    exact hdead k (htime.trans hk)
  have hstuck := Uart.serialWriteChar_diverges hdead' (by rw [hpending]; simp) c
  exact diverges_iff.1 hstuck w hwrite

/-- A serial port that has done nothing yet. -/
def idleUart (shifts : ℕ → Bool) : Uart where
  shifts := shifts
  status _ := 0
  time := 0
  lineControl := 0
  modemControl := 0
  divisorLow := 0
  divisorHigh := 0
  pending := []
  received := 0
  line := []
  lost := []

/-- Two lines are printed to a device that passes the test. -/
theorem puts_printed_two_lines : ∃ r v w,
    initSerial Uart.ports (idleUart fun n => n % 3 = 0) = (r, v) ∧
      (putsOutputs Uart.ports (literal (ascii "Hi\nyou\n")) 0 (.init fun _ => ⟨0, 0⟩, v)).Returns
        ((ascii "Hi\nyou\n").foldl Console.drawChar (.init fun _ => ⟨0, 0⟩), w) ∧
      r = 0 ∧ w.lost = [] ∧ w.line ++ w.pending = ascii "Hi\nyou\n" := by
  have hne : (ascii "Hi\nyou\n").all (· != 0) = true := by decide
  obtain ⟨r, v, w, hinit, hputs, hlost, htested, sent, hsub, hline⟩ :=
    puts_printed (u := idleUart fun n => n % 3 = 0)
      (fun n => ⟨3 * n, by omega, decide_eq_true (Nat.mul_mod_right 3 n)⟩)
      (.init fun _ => ⟨0, 0⟩)
      (cString_literal fun c hc => bne_iff_ne.1 (List.all_eq_true.1 hne c hc))
  have hr : r = 0 := htested.2 rfl
  rw [if_pos hr, List.sublist_nil.1 hsub] at hline
  exact ⟨r, v, w, hinit, hputs, hr, hlost, hline⟩

theorem puts_hangs_one : ∃ v, initSerial Uart.ports (idleUart fun _ => false) = (1, v) ∧
    (putsOutputs Uart.ports (literal [0x48]) 0 (.init fun _ => ⟨0, 0⟩, v)).Diverges :=
  puts_hangs (fun _ _ => rfl) _ (cString_literal (by simp)) (by simp)

end outputs

end Cboot
