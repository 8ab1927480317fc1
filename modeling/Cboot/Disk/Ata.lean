import Cboot.Lib.Fueled
import Cboot.Lib.Memory
import Mathlib.Data.Nat.Find
import Mathlib.Logic.Function.Iterate

/-!
# The disk

The driver of `ata.c`, for any device behind the ports (`Ports`), and the device that
it is written for (`AtaDevice`): a disk with 28-bit sector numbers, whose status port
gives one value after the other.

* `ataPioReadSectors` and `ataPioWriteSectors`: the driver. It waits for the device with
  no bound, so it need not end; reading does if the device becomes ready again and again
  (`AtaDevice.Live`);
* `Polled.pollUntil_returns_iff`: what a wait does to any device whose status port gives one
  value after the other;
* `ataPioReadSectors_returns`: it then stores the sectors asked for, and no more, and
  all that the device has noticed is the command.
-/

namespace Cboot

/-! ## The driver -/

/-- The ports of a machine whose devices are in a state `δ`. -/
structure Ports (δ : Type) where
  ioIn8 : δ → (port : UInt16) → UInt8 × δ
  ioIn16 : δ → (port : UInt16) → UInt16 × δ
  ioOut8 : δ → (port : UInt16) → (data : UInt8) → δ

section driver

variable {δ : Type} (io : Ports δ)

/-- The loop of `ATA_PIO_wait_BSY` and `ATA_PIO_wait_DRQ`: polling the status until it is
    `ready`. -/
def pollUntil (ready : UInt8 → Bool) (d : δ) : Fueled δ :=
  .loop (fun d =>
    let (status, d) := io.ioIn8 d 0x1F7
    if ready status then pure (.inr d) else pure (.inl d)) d

/-- The wait for BSY to clear. -/
def ataPioWaitBsy (d : δ) : Fueled δ := pollUntil io (fun status => status &&& 0x80 == 0) d

/-- The bit tested is RDY, not DRQ. -/
def ataPioWaitDrq (d : δ) : Fueled δ := pollUntil io (fun status => status &&& 0x40 != 0) d

/-- The words of a sector, the first `i` of them. -/
def readWords (dest : ℕ) : (i : ℕ) → δ × Memory → δ × Memory
  | 0, s => s
  | i + 1, s =>
    let (d, m) := readWords dest i s
    let (w, d) := io.ioIn16 d 0x1F0
    (d, m.write 2 (dest + 2 * i) w.toNat)

/-- The loop over the sectors, the first `j` of them. -/
def readSectors (dst : ℕ) : (j : ℕ) → δ × Memory → Fueled (δ × Memory)
  | 0, s => pure s
  | j + 1, s => do
    let (d, m) ← readSectors dst j s
    let d ← ataPioWaitBsy io d
    let d ← ataPioWaitDrq io d
    pure (readWords io (dst + 512 * j) 256 (d, m))

/-- The command, up to its last byte. -/
def sendReadCommand (d : δ) (firstSector : UInt32) (numSectors : UInt8) : δ :=
  let d := io.ioOut8 d 0x1F6 ((0xE0 : UInt8) ||| ((firstSector >>> 24) &&& 0xF).toUInt8)
  let d := io.ioOut8 d 0x1F2 numSectors
  let d := io.ioOut8 d 0x1F3 firstSector.toUInt8
  let d := io.ioOut8 d 0x1F4 (firstSector >>> 8).toUInt8
  let d := io.ioOut8 d 0x1F5 (firstSector >>> 16).toUInt8
  io.ioOut8 d 0x1F7 0x20

/-- `ATA_PIO_read_sectors`, with the memory that it stores the sectors in. -/
def ataPioReadSectors (s : δ × Memory) (dst : ℕ) (firstSector : UInt32) (numSectors : UInt8) :
    Fueled (δ × Memory) := do
  let d ← ataPioWaitBsy io s.1
  let d := sendReadCommand io d firstSector numSectors
  readSectors io dst numSectors.toNat (d, s.2)

end driver

/-- The ports of a machine that also takes doublewords. -/
structure WritePorts (δ : Type) extends Ports δ where
  ioOut32 : δ → (port : UInt16) → (data : UInt32) → δ

section writing

variable {δ : Type} (io : WritePorts δ)

/-- The doublewords of a round of the loop over the sectors, the first `i` of them. -/
def writeDwords (m : Memory) (data : ℕ) : (i : ℕ) → δ → δ
  | 0, d => d
  | i + 1, d => io.ioOut32 (writeDwords m data i d) 0x1F0 (.ofNat (m.read 4 (data + 4 * i)))

/-- The loop over the sectors, the first `j` of them: 256 doublewords are taken from `src`
    for each. -/
def writeSectors (m : Memory) (src : ℕ) : (j : ℕ) → δ → Fueled δ
  | 0, d => pure d
  | j + 1, d => do
    let d ← writeSectors m src j d
    let d ← ataPioWaitBsy io.toPorts d
    let d ← ataPioWaitDrq io.toPorts d
    pure (writeDwords io m (src + 4 * 256 * j) 256 d)

/-- The command, up to its last byte. -/
def sendWriteCommand (d : δ) (firstSector : UInt32) (numSectors : UInt8) : δ :=
  let d := io.ioOut8 d 0x1F6 ((0xE0 : UInt8) ||| ((firstSector >>> 24) &&& 0xF).toUInt8)
  let d := io.ioOut8 d 0x1F2 numSectors
  let d := io.ioOut8 d 0x1F3 firstSector.toUInt8
  let d := io.ioOut8 d 0x1F4 (firstSector >>> 8).toUInt8
  let d := io.ioOut8 d 0x1F5 (firstSector >>> 16).toUInt8
  io.ioOut8 d 0x1F7 0x30

/-- `ATA_PIO_write_sectors`, with the memory that it takes the sectors from. -/
def ataPioWriteSectors (d : δ) (m : Memory) (src : ℕ) (firstSector : UInt32)
    (numSectors : UInt8) : Fueled δ := do
  let d ← ataPioWaitBsy io.toPorts d
  let d := sendWriteCommand io d firstSector numSectors
  writeSectors io m src numSectors.toNat d

end writing

/-! ## Polling -/

/-- The number `n` is the first from `k` on that has the property. -/
def FirstFrom (p : ℕ → Prop) (k n : ℕ) : Prop := k ≤ n ∧ p n ∧ ∀ i, k ≤ i → i < n → ¬p i

theorem FirstFrom.exists {p : ℕ → Prop} {k : ℕ} (h : ∃ n ≥ k, p n) : ∃ n, FirstFrom p k n := by
  classical
  obtain ⟨hle, hn⟩ := Nat.find_spec h
  exact ⟨Nat.find h, hle, hn, fun i h₁ h₂ h₃ => Nat.find_min h h₂ ⟨h₁, h₃⟩⟩

section polling

variable {δ : Type} {io : Ports δ} {status : δ → ℕ → UInt8} {polls : δ → ℕ} {poll : δ → δ}
  {ready : UInt8 → Bool} {d d' : δ}

/-- The status port of a device gives the values `status`, poll after poll, and every poll
    leaves the device as `poll` says. -/
structure Polled (io : Ports δ) (status : δ → ℕ → UInt8) (polls : δ → ℕ) (poll : δ → δ) :
    Prop where
  ioIn8 : ∀ d, io.ioIn8 d 0x1F7 = (status d (polls d), poll d)
  status_poll : ∀ d, status (poll d) = status d
  polls_poll : ∀ d, polls (poll d) = polls d + 1

namespace Polled

/-- A wait goes on until the first status that is waited for. -/
theorem pollUntil_returns (hp : Polled io status polls poll) {n : ℕ}
    (h : FirstFrom (fun i => ready (status d i) = true) (polls d) (polls d + n)) :
    (pollUntil io ready d).Returns (poll^[n + 1] d) := by
  obtain ⟨_, hn, hnot⟩ := h
  induction n generalizing d with
  | zero =>
    have hready : ready (status d (polls d)) = true := hn
    refine Fueled.Returns.loop_done ?_
    simp only [hp.ioIn8, hready, if_true, Fueled.returns_pure_iff]
    rfl
  | succ n ih =>
    have hwait : ¬ready (status d (polls d)) = true := hnot _ le_rfl (by omega)
    have hrest : (pollUntil io ready (poll d)).Returns (poll^[n + 1] (poll d)) := by
      refine ih (by omega) ?_ fun i h₁ h₂ => ?_
      · rwa [hp.status_poll, hp.polls_poll, Nat.add_assoc, Nat.add_comm 1]
      · rw [hp.polls_poll] at h₁ h₂
        rw [hp.status_poll]
        exact hnot i (by omega) (by omega)
    refine (Fueled.Returns.loop_iff ?_).2 hrest
    simp only [hp.ioIn8, hwait, Bool.false_eq_true, if_false, Fueled.returns_pure_iff]

/-- It does not end if there is none. -/
theorem pollUntil_returns_iff (hp : Polled io status polls poll) :
    (pollUntil io ready d).Returns d' ↔
      ∃ n, FirstFrom (fun i => ready (status d i) = true) (polls d) (polls d + n) ∧
        d' = poll^[n + 1] d := by
  constructor
  · intro h
    by_cases hex : ∃ n ≥ polls d, ready (status d n) = true
    · obtain ⟨n, hfirst⟩ := FirstFrom.exists hex
      obtain ⟨j, rfl⟩ := Nat.exists_eq_add_of_le hfirst.1
      exact ⟨j, hfirst, h.unique (hp.pollUntil_returns hfirst)⟩
    · -- Nothing that is waited for comes: every round goes on.
      refine absurd h (Fueled.diverges_iff.1 (Fueled.diverges_loop
        (I := fun e => polls d ≤ polls e ∧ status e = status d) ⟨le_rfl, rfl⟩ ?_) d')
      rintro e ⟨hle, hs⟩
      have hwait : ¬ready (status e (polls e)) = true := fun h => hex ⟨_, hle, hs ▸ h⟩
      refine ⟨poll e, ?_, ?_, (hp.status_poll e).trans hs⟩
      · simp only [hp.ioIn8, hwait, Bool.false_eq_true, if_false, Fueled.returns_pure_iff]
      · rw [hp.polls_poll]
        exact Nat.le_succ_of_le hle
  · rintro ⟨n, hn, rfl⟩
    exact hp.pollUntil_returns hn

end Polled

end polling

/-! ## The device -/

/-- A drive. Its data phase gives one sector at a time, the next one after a poll. -/
structure AtaDevice where
  /-- The bytes of every sector. -/
  disk : ℕ → Memory
  /-- The values of the status port, poll after poll. -/
  status : ℕ → UInt8
  polls : ℕ
  drive : UInt8
  count : UInt8
  lbaLow : UInt8
  lbaMid : UInt8
  lbaHigh : UInt8
  /-- The sector in the data phase, and its next word. -/
  sector : ℕ
  word : ℕ
  /-- The read commands taken: first sector and count. -/
  reads : List (ℕ × ℕ)

namespace AtaDevice

/-- The sector number in the registers. -/
def lba (d : AtaDevice) : ℕ :=
  d.lbaLow.toNat + 2 ^ 8 * d.lbaMid.toNat + 2 ^ 16 * d.lbaHigh.toNat + 2 ^ 24 * (d.drive.toNat % 16)

/-- The status port. A poll after the last word of a sector begins the next one. -/
def ioIn8 (d : AtaDevice) (port : UInt16) : UInt8 × AtaDevice :=
  if port = 0x1F7 then
    let d' := { d with polls := d.polls + 1 }
    (d.status d.polls, if d.word < 256 then d' else { d' with sector := d.sector + 1, word := 0 })
  else (0, d)

/-- The data port gives the words of the sector, up to the last one. -/
def ioIn16 (d : AtaDevice) (port : UInt16) : UInt16 × AtaDevice :=
  if port = 0x1F0 ∧ d.word < 256 then
    (.ofNat ((d.disk d.sector).read 2 (2 * d.word)), { d with word := d.word + 1 })
  else (0, d)

/-- The registers of a command, and the command to read. -/
def ioOut8 (d : AtaDevice) (port : UInt16) (data : UInt8) : AtaDevice :=
  if port = 0x1F2 then { d with count := data }
  else if port = 0x1F3 then { d with lbaLow := data }
  else if port = 0x1F4 then { d with lbaMid := data }
  else if port = 0x1F5 then { d with lbaHigh := data }
  else if port = 0x1F6 then { d with drive := data }
  else if port = 0x1F7 ∧ data = 0x20 then
    { d with sector := d.lba, word := 0, reads := d.reads ++ [(d.lba, d.count.toNat)] }
  else d

/-- The ports of a machine with the drive. -/
def ports : Ports AtaDevice := ⟨ioIn8, ioIn16, ioOut8⟩

/-- The device is ready again and again. -/
structure Live (d : AtaDevice) : Prop where
  not_bsy : ∀ k, ∃ n ≥ k, d.status n &&& 0x80 = 0
  rdy : ∀ k, ∃ n ≥ k, d.status n &&& 0x40 ≠ 0

/-- The device `d'` is `d` after some read commands. -/
structure After (d d' : AtaDevice) (cmds : List (ℕ × ℕ)) : Prop where
  disk : d'.disk = d.disk
  status : d'.status = d.status
  reads : d'.reads = d.reads ++ cmds

theorem After.live {d d' : AtaDevice} {cmds : List (ℕ × ℕ)} (h : After d d' cmds) (hl : d.Live) :
    d'.Live :=
  ⟨h.status ▸ hl.not_bsy, h.status ▸ hl.rdy⟩

theorem After.trans {d₁ d₂ d₃ : AtaDevice} {cmds₁ cmds₂ : List (ℕ × ℕ)} (h₁ : After d₁ d₂ cmds₁)
    (h₂ : After d₂ d₃ cmds₂) : After d₁ d₃ (cmds₁ ++ cmds₂) :=
  ⟨h₂.disk.trans h₁.disk, h₂.status.trans h₁.status, by rw [h₂.reads, h₁.reads, List.append_assoc]⟩

end AtaDevice

/-! ## Reading -/

/-- The memory with `n` sectors stored at `dst`, from the sector `lba` on. -/
def storeSectors (m : Memory) (dst : ℕ) (disk : ℕ → Memory) (lba n : ℕ) : Memory := fun x =>
  if dst ≤ x ∧ x < dst + 512 * n then disk (lba + (x - dst) / 512) ((x - dst) % 512) else m x

theorem storeSectors_of_not_mem {m : Memory} {dst lba n x : ℕ} {disk : ℕ → Memory}
    (h : x < dst ∨ dst + 512 * n ≤ x) : storeSectors m dst disk lba n x = m x := if_neg (by omega)

/-- The bytes stored. -/
theorem storeSectors_of_lt {m : Memory} {dst lba n i : ℕ} {disk : ℕ → Memory} (h : i < 512 * n) :
    storeSectors m dst disk lba n (dst + i) = disk (lba + i / 512) (i % 512) := by
  rw [storeSectors, if_pos (by omega), Nat.add_sub_cancel_left]

theorem storeSectors_zero (m : Memory) (dst : ℕ) (disk : ℕ → Memory) (lba : ℕ) :
    storeSectors m dst disk lba 0 = m := funext fun _ => storeSectors_of_not_mem (by omega)

/-- One more sector. -/
theorem storeSectors_succ (m : Memory) (dst : ℕ) (disk : ℕ → Memory) (lba n : ℕ) :
    storeSectors m dst disk lba (n + 1) = fun x =>
      if dst + 512 * n ≤ x ∧ x < dst + 512 * n + 2 * 256 then
        disk (lba + n) (x - (dst + 512 * n))
      else storeSectors m dst disk lba n x := by
  funext x
  by_cases h : dst + 512 * n ≤ x ∧ x < dst + 512 * n + 2 * 256
  · have hdiv : (x - dst) / 512 = n := by omega
    have hmod : (x - dst) % 512 = x - (dst + 512 * n) := by omega
    rw [if_pos h, storeSectors, if_pos (by omega), hdiv, hmod]
  · rw [if_neg h, storeSectors, storeSectors]
    exact if_congr (by omega) rfl rfl

/-- The words of a device that gives those of a sector. -/
theorem readWords_eq {δ : Type} {io : Ports δ} {f : ℕ → δ} {sector : Memory}
    (hf : ∀ i < 256, io.ioIn16 (f i) 0x1F0 = (.ofNat (sector.read 2 (2 * i)), f (i + 1)))
    (m : Memory) (dest : ℕ) {i : ℕ} (hi : i ≤ 256) :
    readWords io dest i (f 0, m) = (f i, fun x =>
      if dest ≤ x ∧ x < dest + 2 * i then sector (x - dest) else m x) := by
  induction i with
  | zero => exact Prod.ext rfl (funext fun x => (if_neg (by omega)).symm)
  | succ i ih =>
    have hread : sector.read 2 (2 * i) < 2 ^ 16 := sector.read_lt 2 _
    simp only [readWords, ih (Nat.le_of_succ_le hi), hf i hi]
    refine Prod.ext rfl (funext fun x => ?_)
    simp only
    rw [UInt16.toNat_ofNat', Nat.mod_eq_of_lt hread]
    by_cases hx : dest + 2 * i ≤ x ∧ x < dest + 2 * (i + 1)
    · obtain ⟨j, rfl⟩ := Nat.exists_eq_add_of_le hx.1
      have hj : j < 2 := by omega
      rw [Memory.write_of_mem hj, ← Memory.byte_of_read hj, if_pos (by omega)]
      congr 1
      omega
    · rw [Memory.write_of_not_mem (by omega)]
      exact if_congr (by omega) rfl rfl

/-- The sector number is put together from the parts that it is sent in. -/
theorem sectorNumber_eq (firstSector : UInt32) :
    firstSector.toUInt8.toNat + 2 ^ 8 * (firstSector >>> 8).toUInt8.toNat +
      2 ^ 16 * (firstSector >>> 16).toUInt8.toNat +
      2 ^ 24 * (((0xE0 : UInt8) ||| ((firstSector >>> 24) &&& 0xF).toUInt8).toNat % 16) =
        firstSector.toNat % 2 ^ 28 := by
  have hdrive : ∀ n < 16, (0xE0 ||| n) % 16 = n := by decide
  have hlt := firstSector.toNat_lt
  have hand : ∀ n, n &&& 0xF = n % 2 ^ 4 := fun n => Nat.and_two_pow_sub_one_eq_mod n 4
  simp only [UInt8.toNat_or, UInt32.toNat_toUInt8, UInt32.toNat_and, UInt32.toNat_shiftRight,
    UInt32.reduceToNat, UInt8.reduceToNat, Nat.reduceMod, hand, Nat.shiftRight_eq_div_pow]
  rw [hdrive _ (by omega)]
  omega

namespace AtaDevice

open Fueled

variable {d : AtaDevice}

/-- The sector and the word that follow: after its last word, a sector is followed by the
    next one. -/
def next (d : AtaDevice) : ℕ × ℕ := if d.word < 256 then (d.sector, d.word) else (d.sector + 1, 0)

theorem next_of_lt (h : d.word < 256) : d.next = (d.sector, d.word) := if_pos h

/-- The device after a poll. -/
def poll (d : AtaDevice) : AtaDevice := (d.ioIn8 0x1F7).2

theorem poll_spec (d : AtaDevice) :
    After d d.poll [] ∧ d.poll.polls = d.polls + 1 ∧ d.poll.next = d.next ∧ d.poll.word < 256 := by
  rw [poll, ioIn8, if_pos rfl]
  dsimp only
  split
  · rename_i h
    exact ⟨⟨rfl, rfl, (List.append_nil _).symm⟩, rfl, rfl, h⟩
  · rename_i h
    exact ⟨⟨rfl, rfl, (List.append_nil _).symm⟩, rfl, (if_neg h).symm, Nat.succ_pos _⟩

theorem polled_ports : Polled ports AtaDevice.status AtaDevice.polls poll where
  ioIn8 _ := rfl
  status_poll d := d.poll_spec.1.status
  polls_poll d := d.poll_spec.2.1

/-- After polls, the next sector is in the data phase. -/
theorem iterate_poll (d : AtaDevice) (n : ℕ) :
    After d (poll^[n + 1] d) [] ∧ (poll^[n + 1] d).next = d.next ∧
      (poll^[n + 1] d).word < 256 := by
  induction n with
  | zero =>
    obtain ⟨hafter, _, hnext, hword⟩ := d.poll_spec
    exact ⟨hafter, hnext, hword⟩
  | succ n ih =>
    obtain ⟨hafter, _, hnext, hword⟩ := (poll^[n + 1] d).poll_spec
    rw [Function.iterate_succ_apply']
    exact ⟨ih.1.trans hafter, hnext.trans ih.2.1, hword⟩

/-- Waiting for a status that comes ends. -/
theorem pollUntil_returns {ready : UInt8 → Bool} (h : ∃ n ≥ d.polls, ready (d.status n) = true) :
    ∃ d', (pollUntil ports ready d).Returns d' ∧ After d d' [] ∧ d'.next = d.next ∧
      d'.word < 256 := by
  obtain ⟨n, hfirst⟩ := FirstFrom.exists h
  obtain ⟨j, rfl⟩ := Nat.exists_eq_add_of_le hfirst.1
  exact ⟨_, polled_ports.pollUntil_returns hfirst, d.iterate_poll j⟩

theorem ataPioWaitBsy_returns (hl : d.Live) : ∃ d', (ataPioWaitBsy ports d).Returns d' ∧
    After d d' [] ∧ d'.next = d.next ∧ d'.word < 256 := by
  obtain ⟨n, hn, h⟩ := hl.not_bsy d.polls
  exact pollUntil_returns ⟨n, hn, by simpa using h⟩

theorem ataPioWaitDrq_returns (hl : d.Live) : ∃ d', (ataPioWaitDrq ports d).Returns d' ∧
    After d d' [] ∧ d'.next = d.next ∧ d'.word < 256 := by
  obtain ⟨n, hn, h⟩ := hl.rdy d.polls
  exact pollUntil_returns ⟨n, hn, by simpa using h⟩

/-- The first words of a sector. -/
theorem readWords_spec (hword : d.word = 0) (m : Memory) (dest : ℕ) {i : ℕ} (hi : i ≤ 256) :
    readWords ports dest i (d, m) = ({ d with word := i }, fun x =>
      if dest ≤ x ∧ x < dest + 2 * i then d.disk d.sector (x - dest) else m x) := by
  have hin : ∀ i < 256, ports.ioIn16 { d with word := i } 0x1F0 =
      (.ofNat ((d.disk d.sector).read 2 (2 * i)), { d with word := i + 1 }) :=
    fun i hi => if_pos ⟨rfl, hi⟩
  have hwords := @readWords_eq _ ports (fun i => { d with word := i }) _ hin m dest i hi
  simp only [← hword] at hwords
  exact hwords

/-- The sectors of a command, from the first one on. -/
theorem readSectors_returns (hl : d.Live) (hword : d.word = 0) (m : Memory) (dst n : ℕ) :
    ∃ d', (readSectors ports dst n (d, m)).Returns (d', storeSectors m dst d.disk d.sector n) ∧
      After d d' [] ∧ d'.next = (d.sector + n, 0) := by
  induction n with
  | zero =>
    refine ⟨d, ?_, ⟨rfl, rfl, (List.append_nil _).symm⟩, by rw [next_of_lt (by omega), hword]; rfl⟩
    rw [readSectors, returns_pure_iff]
    exact congrArg _ (storeSectors_zero ..)
  | succ n ih =>
    obtain ⟨d₁, h₁, ha₁, hn₁⟩ := ih
    obtain ⟨d₂, h₂, ha₂, hn₂, _⟩ := ataPioWaitBsy_returns (ha₁.live hl)
    have ha₂ := ha₁.trans ha₂
    obtain ⟨d₃, h₃, ha₃, hn₃, hw₃⟩ := ataPioWaitDrq_returns (ha₂.live hl)
    have ha₃ := ha₂.trans ha₃
    rw [hn₂, hn₁, next_of_lt hw₃] at hn₃
    obtain ⟨hsector, hword'⟩ := Prod.mk.inj hn₃
    refine ⟨{ d₃ with word := 256 }, ?_, ⟨ha₃.disk, ha₃.status, ha₃.reads⟩, ?_⟩
    · simp only [readSectors]
      rw [h₁.bind_iff, h₂.bind_iff, h₃.bind_iff, returns_pure_iff, readWords_spec hword' _ _ le_rfl]
      rw [ha₃.disk, hsector]
      exact congrArg _ (storeSectors_succ m dst d.disk d.sector n)
    · rw [next, if_neg (Nat.lt_irrefl 256)]
      simp only [hsector, Nat.add_assoc]

/-- The command as the device takes it. -/
theorem sendReadCommand_spec (d : AtaDevice) (firstSector : UInt32) (numSectors : UInt8) :
    After d (sendReadCommand ports d firstSector numSectors)
      [(firstSector.toNat % 2 ^ 28, numSectors.toNat)] ∧
    (sendReadCommand ports d firstSector numSectors).sector = firstSector.toNat % 2 ^ 28 ∧
    (sendReadCommand ports d firstSector numSectors).word = 0 := by
  rw [← sectorNumber_eq]
  exact ⟨⟨rfl, rfl, rfl⟩, rfl, rfl⟩

/-- Reading ends, with the sectors asked for in the memory. -/
theorem ataPioReadSectors_returns (hl : d.Live) (m : Memory) (dst : ℕ) (firstSector : UInt32)
    (numSectors : UInt8) :
    ∃ d', (ataPioReadSectors ports (d, m) dst firstSector numSectors).Returns
        (d', storeSectors m dst d.disk (firstSector.toNat % 2 ^ 28) numSectors.toNat) ∧
      After d d' [(firstSector.toNat % 2 ^ 28, numSectors.toNat)] := by
  obtain ⟨d₁, h₁, ha₁, _⟩ := ataPioWaitBsy_returns hl
  obtain ⟨ha₂, hsector, hword⟩ := sendReadCommand_spec d₁ firstSector numSectors
  have ha₂ := ha₁.trans ha₂
  obtain ⟨d₃, h₃, ha₃, _⟩ := readSectors_returns (ha₂.live hl) hword m dst numSectors.toNat
  rw [hsector, ha₂.disk] at h₃
  exact ⟨d₃, h₁.bind_iff.2 h₃, ha₂.trans ha₃⟩

end AtaDevice

/-! ## A drive -/

/-- A drive with the disk, always ready. -/
def driveOf (disk : ℕ → Memory) : AtaDevice :=
  { disk := disk, status := fun _ => 0x40, polls := 0, drive := 0, count := 0, lbaLow := 0,
    lbaMid := 0, lbaHigh := 0, sector := 0, word := 0, reads := [] }

theorem live_driveOf (disk : ℕ → Memory) : (driveOf disk).Live :=
  ⟨fun k => ⟨k, le_rfl, show (0x40 : UInt8) &&& 0x80 = 0 by decide⟩,
    fun k => ⟨k, le_rfl, show (0x40 : UInt8) &&& 0x40 ≠ 0 by decide⟩⟩

end Cboot
