import Cboot.Disk.Handshake
import Mathlib.Logic.Function.Basic

/-!
# Transfers of sectors

A drive that both reads and writes (`PioDrive`): it decodes the sector number and the count
from its registers, and the data phase of a sector takes or gives exactly 256 words, from a
status on that says that data is asked for. Other words are ignored.

* `ataPioReadSectors_delivers`: when the waits end with data asked for, reading stores the
  sectors of the command in memory, and nothing else;
* `ataPioWriteSectors_stores`: writing sends 256 doublewords for each sector, of which the
  drive takes the first 128. Every sector but the first gets the wrong bytes
  (`storesSource_iff`), and half of the bytes read from the source are beyond it
  (`not_writesBack`).
-/

namespace Cboot

open Fueled

/-! ## The drive -/

/-- The command being carried out. -/
inductive PioCommand
  | none
  | read
  | write
  deriving DecidableEq

/-- A drive with 28-bit sector numbers. -/
structure PioDrive where
  /-- The bytes of every sector. -/
  disk : ℕ → Memory
  /-- The values of the status port, poll after poll. -/
  status : ℕ → UInt8
  polls : ℕ
  drive : UInt8
  count : UInt8
  lbaLow : UInt8
  lbaMid : UInt8
  lbaHigh : UInt8
  command : PioCommand
  /-- The next sector of the command, and how many there are from it on. -/
  next : ℕ
  left : ℕ
  /-- The sector in the data phase, and its next word: 256 when it has gone through. -/
  sector : ℕ
  word : ℕ
  /-- The doublewords written to the data port. -/
  written : List UInt32

namespace PioDrive

/-- The sector number in the registers. -/
def lba (d : PioDrive) : ℕ :=
  d.lbaLow.toNat + 2 ^ 8 * d.lbaMid.toNat + 2 ^ 16 * d.lbaHigh.toNat + 2 ^ 24 * (d.drive.toNat % 16)

/-- The status asks for data: BSY is clear, and DRQ set. -/
def AsksData (status : UInt8) : Prop := status &&& 0x80 = 0 ∧ status &&& 0x08 ≠ 0

instance (status : UInt8) : Decidable (AsksData status) := inferInstanceAs (Decidable (_ ∧ _))

/-- A poll. The data phase of the next sector begins with a status that asks for data. -/
def poll (d : PioDrive) : PioDrive :=
  let d' := { d with polls := d.polls + 1 }
  if AsksData (d.status d.polls) ∧ 256 ≤ d.word ∧ 0 < d.left then
    { d' with sector := d.next, word := 0, next := d.next + 1, left := d.left - 1 }
  else d'

/-- A command for `count` sectors. A count of zero stands for 256. -/
def start (d : PioDrive) (command : PioCommand) : PioDrive :=
  { d with
    command := command
    next := d.lba
    left := if d.count = 0 then 256 else d.count.toNat
    word := 256 }

/-- A word written to the data port. -/
def takeWord (d : PioDrive) (w : UInt16) : PioDrive :=
  if d.command = .write ∧ d.word < 256 then
    { d with
      disk := Function.update d.disk d.sector ((d.disk d.sector).write 2 (2 * d.word) w.toNat)
      word := d.word + 1 }
  else d

/-- The status port. -/
def ioIn8 (d : PioDrive) (port : UInt16) : UInt8 × PioDrive :=
  if port = 0x1F7 then (d.status d.polls, d.poll) else (0, d)

/-- The data port gives words in the data phase of a command to read. -/
def ioIn16 (d : PioDrive) (port : UInt16) : UInt16 × PioDrive :=
  if port = 0x1F0 ∧ d.command = .read ∧ d.word < 256 then
    (.ofNat ((d.disk d.sector).read 2 (2 * d.word)), { d with word := d.word + 1 })
  else (0, d)

/-- The registers of a command, and the two commands. -/
def ioOut8 (d : PioDrive) (port : UInt16) (data : UInt8) : PioDrive :=
  if port = 0x1F2 then { d with count := data }
  else if port = 0x1F3 then { d with lbaLow := data }
  else if port = 0x1F4 then { d with lbaMid := data }
  else if port = 0x1F5 then { d with lbaHigh := data }
  else if port = 0x1F6 then { d with drive := data }
  else if port = 0x1F7 ∧ data = 0x20 then d.start .read
  else if port = 0x1F7 ∧ data = 0x30 then d.start .write
  else d

/-- A doubleword is two words, the low one first. -/
def ioOut32 (d : PioDrive) (port : UInt16) (data : UInt32) : PioDrive :=
  if port = 0x1F0 then
    { (d.takeWord data.toUInt16).takeWord (data >>> 16).toUInt16 with
      written := d.written ++ [data] }
  else d

/-- The ports of a machine with the drive. -/
def ports : WritePorts PioDrive := ⟨⟨ioIn8, ioIn16, ioOut8⟩, ioOut32⟩

end PioDrive

/-- After `l` polls, the waits for `n` sectors have ended, the first of them after `k` polls,
    and each one with a status that asks for data. -/
inductive AsksEach (status : ℕ → UInt8) (k : ℕ) : (n l : ℕ) → Prop
  | zero : AsksEach status k 0 k
  | succ {n l b r : ℕ} : AsksEach status k n l → EndsBsy status l b → EndsDrq status (b + 1) r →
      PioDrive.AsksData (status r) → AsksEach status k (n + 1) (r + 1)

/-- The wait in front of a command ends, and those for `n` sectors do with data asked for. -/
def WaitsEnd (status : ℕ → UInt8) (polls n : ℕ) : Prop :=
  ∃ b l, EndsBsy status polls b ∧ AsksEach status (b + 1) n l

/-! ## Waiting -/

namespace PioDrive

variable {d d' : PioDrive} {ready : UInt8 → Bool} {s left n : ℕ}

/-- What a poll does not change. -/
structure Kept (d d' : PioDrive) : Prop where
  disk : d'.disk = d.disk
  status : d'.status = d.status
  command : d'.command = d.command
  written : d'.written = d.written

theorem Kept.refl (d : PioDrive) : Kept d d := ⟨rfl, rfl, rfl, rfl⟩

theorem Kept.trans {d'' : PioDrive} (h : Kept d d') (h' : Kept d' d'') : Kept d d'' :=
  ⟨h'.disk.trans h.disk, h'.status.trans h.status, h'.command.trans h.command,
    h'.written.trans h.written⟩

/-- The data phase of the sector `s` begins. -/
structure Begun (d : PioDrive) (s left : ℕ) : Prop where
  sector : d.sector = s
  word : d.word = 0
  next : d.next = s + 1
  left : d.left = left

/-- The sector `s` is the next one of `left + 1`: its data phase has not begun, or no word has
    gone through in it. -/
def Awaits (d : PioDrive) (s left : ℕ) : Prop :=
  (d.word = 256 ∧ d.next = s ∧ d.left = left + 1) ∨ d.Begun s left

theorem poll_kept (d : PioDrive) : Kept d d.poll ∧ d.poll.polls = d.polls + 1 := by
  rw [poll]
  split <;> exact ⟨⟨rfl, rfl, rfl, rfl⟩, rfl⟩

theorem Awaits.poll (h : d.Awaits s left) : d.poll.Awaits s left := by
  rw [PioDrive.poll]
  split
  · rename_i hcond
    rcases h with ⟨_, hnext, hleft⟩ | h
    · refine .inr ⟨hnext, rfl, congrArg (· + 1) hnext, ?_⟩
      change d.left - 1 = left
      omega
    · exact absurd hcond.2.1 (by rw [h.word]; decide)
  · rcases h with h | h
    · exact .inl h
    · exact .inr ⟨h.sector, h.word, h.next, h.left⟩

/-- With a status that asks for data, the data phase begins. -/
theorem Awaits.poll_begun (h : d.Awaits s left) (hasks : AsksData (d.status d.polls)) :
    d.poll.Begun s left := by
  rw [PioDrive.poll]
  rcases h with ⟨hword, hnext, hleft⟩ | h
  · rw [if_pos ⟨hasks, by omega, by omega⟩]
    refine ⟨hnext, rfl, congrArg (· + 1) hnext, ?_⟩
    change d.left - 1 = left
    omega
  · rw [if_neg fun hcond => absurd hcond.2.1 (by rw [h.word]; decide)]
    exact ⟨h.sector, h.word, h.next, h.left⟩

theorem polled_ports : Polled ports.toPorts PioDrive.status PioDrive.polls poll where
  ioIn8 _ := rfl
  status_poll d := d.poll_kept.1.status
  polls_poll d := d.poll_kept.2

/-- Polls, the last one with the number `d.polls + n`. -/
theorem iterate_poll (d : PioDrive) (n : ℕ) :
    Kept d (poll^[n + 1] d) ∧ (poll^[n + 1] d).polls = d.polls + n + 1 ∧
      ∀ s left, d.Awaits s left → (poll^[n + 1] d).Awaits s left ∧
        (AsksData (d.status (d.polls + n)) → (poll^[n + 1] d).Begun s left) := by
  induction n with
  | zero => exact ⟨d.poll_kept.1, d.poll_kept.2, fun s left hs => ⟨hs.poll, hs.poll_begun⟩⟩
  | succ n ih =>
    obtain ⟨hkept, hpolls, hawaits⟩ := ih
    obtain ⟨hkept', hpolls'⟩ := (poll^[n + 1] d).poll_kept
    rw [Function.iterate_succ_apply']
    refine ⟨hkept.trans hkept', by rw [hpolls', hpolls]; rfl, fun s left hs => ?_⟩
    have hs := (hawaits s left hs).1
    refine ⟨hs.poll, fun hasks => hs.poll_begun ?_⟩
    rwa [hkept.status, hpolls]

/-- A wait ends with the first status that is waited for. -/
theorem pollUntil_returns
    (h : FirstFrom (fun i => ready (d.status i) = true) d.polls n) :
    ∃ d', (pollUntil ports.toPorts ready d).Returns d' ∧ Kept d d' ∧ d'.polls = n + 1 ∧
      ∀ s left, d.Awaits s left →
        d'.Awaits s left ∧ (AsksData (d.status n) → d'.Begun s left) := by
  obtain ⟨j, rfl⟩ := Nat.exists_eq_add_of_le h.1
  exact ⟨_, polled_ports.pollUntil_returns h, d.iterate_poll j⟩

theorem ataPioWaitBsy_returns {b : ℕ} (hb : EndsBsy d.status d.polls b) :
    ∃ d', (ataPioWaitBsy ports.toPorts d).Returns d' ∧ Kept d d' ∧ d'.polls = b + 1 ∧
      ∀ s left, d.Awaits s left → d'.Awaits s left := by
  have hbsy : FirstFrom (fun i => (d.status i &&& 0x80 == 0) = true) d.polls b := by
    simpa only [EndsBsy, beq_iff_eq] using hb
  obtain ⟨d', hret, hkept, hpolls, hawaits⟩ :=
    @pollUntil_returns d (fun status => status &&& 0x80 == 0) b hbsy
  exact ⟨d', hret, hkept, hpolls, fun s left hs => (hawaits s left hs).1⟩

/-- The two waits in front of a sector. -/
theorem waits_return {l b r : ℕ} (hl : d.polls = l) (hb : EndsBsy d.status l b)
    (hr : EndsDrq d.status (b + 1) r) (hasks : AsksData (d.status r)) (hs : d.Awaits s left) :
    ∃ d₁ d₂, (ataPioWaitBsy ports.toPorts d).Returns d₁ ∧
      (ataPioWaitDrq ports.toPorts d₁).Returns d₂ ∧ Kept d d₂ ∧ d₂.polls = r + 1 ∧
      d₂.Begun s left := by
  subst hl
  obtain ⟨d₁, h₁, hk₁, hp₁, ha₁⟩ := ataPioWaitBsy_returns hb
  have hdrq : FirstFrom (fun i => (d₁.status i &&& 0x40 != 0) = true) d₁.polls r := by
    rw [hp₁, hk₁.status]
    simpa only [EndsDrq, bne_iff_ne] using hr
  obtain ⟨d₂, h₂, hk₂, hp₂, ha₂⟩ :=
    @pollUntil_returns d₁ (fun status => status &&& 0x40 != 0) r hdrq
  refine ⟨d₁, d₂, h₁, h₂, hk₁.trans hk₂, hp₂, ?_⟩
  exact (ha₂ s left (ha₁ s left hs)).2 (by rwa [hk₁.status])

/-! ## Commands -/

/-- Between two sectors of a command: `left` are left, from the sector `s` on. -/
structure Between (d : PioDrive) (s left : ℕ) : Prop where
  word : d.word = 256
  next : d.next = s
  left : d.left = left

/-- The drive `d'` has taken a command for `n` sectors from the sector `s` on. -/
structure Commanded (d d' : PioDrive) (command : PioCommand) (s n : ℕ) : Prop where
  disk : d'.disk = d.disk
  status : d'.status = d.status
  polls : d'.polls = d.polls
  written : d'.written = d.written
  command : d'.command = command
  between : d'.Between s n

section commands

variable (d : PioDrive) (firstSector : UInt32) (numSectors : UInt8)

/-- The drive with the registers of a command. -/
def registers : PioDrive :=
  { d with
    drive := (0xE0 : UInt8) ||| ((firstSector >>> 24) &&& 0xF).toUInt8
    count := numSectors
    lbaLow := firstSector.toUInt8
    lbaMid := (firstSector >>> 8).toUInt8
    lbaHigh := (firstSector >>> 16).toUInt8 }

theorem lba_registers : (d.registers firstSector numSectors).lba = firstSector.toNat % 2 ^ 28 :=
  sectorNumber_eq firstSector

theorem sendReadCommand_eq : sendReadCommand ports.toPorts d firstSector numSectors =
    (d.registers firstSector numSectors).start .read := rfl

theorem sendWriteCommand_eq : sendWriteCommand ports d firstSector numSectors =
    (d.registers firstSector numSectors).start .write := rfl

variable {numSectors}

theorem commanded_start (command : PioCommand) (hn : numSectors ≠ 0) :
    Commanded d ((d.registers firstSector numSectors).start command) command
      (firstSector.toNat % 2 ^ 28) numSectors.toNat :=
  ⟨rfl, rfl, rfl, rfl, rfl, rfl, lba_registers d firstSector numSectors, if_neg hn⟩

end commands

theorem Between.awaits (h : d.Between s (left + 1)) : d.Awaits s left :=
  .inl ⟨h.word, h.next, h.left⟩

/-! ## Reading -/

/-- The words of a sector, read. -/
theorem readWords_spec (hread : d.command = .read) (hword : d.word = 0) (m : Memory) (dest : ℕ) :
    readWords ports.toPorts dest 256 (d, m) = ({ d with word := 256 }, fun x =>
      if dest ≤ x ∧ x < dest + 2 * 256 then d.disk d.sector (x - dest) else m x) := by
  have hin : ∀ i < 256, ports.ioIn16 { d with word := i } 0x1F0 =
      (.ofNat ((d.disk d.sector).read 2 (2 * i)), { d with word := i + 1 }) :=
    fun i hi => if_pos ⟨rfl, hread, hi⟩
  have hwords := @readWords_eq _ ports.toPorts (fun i => { d with word := i }) _ hin m dest 256
    le_rfl
  simp only [← hword] at hwords
  exact hwords

/-- The first sectors of a command. -/
theorem readSectors_returns (hread : d.command = .read) (hd : d.Between s left)
    {j l : ℕ} (hasks : AsksEach d.status d.polls j l) (hj : j ≤ left) (m : Memory) (dst : ℕ) :
    ∃ d', (readSectors ports.toPorts dst j (d, m)).Returns (d', storeSectors m dst d.disk s j) ∧
      Kept d d' ∧ d'.polls = l ∧ d'.Between (s + j) (left - j) := by
  induction hasks with
  | zero =>
    refine ⟨d, ?_, .refl d, rfl, hd⟩
    rw [readSectors, returns_pure_iff]
    exact congrArg _ (storeSectors_zero ..)
  | @succ j l b r _ hb hr hasks ih =>
    obtain ⟨d₁, h₁, hk₁, hp₁, hbtw₁⟩ := ih (Nat.le_of_succ_le hj)
    have hleft : left - j = left - (j + 1) + 1 := by omega
    rw [hleft] at hbtw₁
    rw [← hk₁.status] at hb hr hasks
    obtain ⟨d₂, d₃, h₂, h₃, hk₃, hp₃, hbegun⟩ := waits_return hp₁ hb hr hasks hbtw₁.awaits
    have hk₃ := hk₁.trans hk₃
    refine ⟨{ d₃ with word := 256 }, ?_, ⟨hk₃.disk, hk₃.status, hk₃.command, hk₃.written⟩, hp₃,
      rfl, hbegun.next, hbegun.left⟩
    rw [readSectors, h₁.bind_iff, h₂.bind_iff, h₃.bind_iff, returns_pure_iff,
      readWords_spec (hk₃.command.trans hread) hbegun.word, hbegun.sector, hk₃.disk]
    exact congrArg _ (storeSectors_succ m dst d.disk s j)

/-! ## Writing -/

/-- The first `i` doublewords from the address `data` on. -/
def dwords (m : Memory) (data i : ℕ) : List UInt32 :=
  (List.range i).map fun k => .ofNat (m.read 4 (data + 4 * k))

theorem dwords_succ (m : Memory) (data i : ℕ) :
    dwords m data (i + 1) = dwords m data i ++ [.ofNat (m.read 4 (data + 4 * i))] := by
  rw [dwords, List.range_succ, List.map_append]
  rfl

theorem dwords_add (m : Memory) (data i k : ℕ) :
    dwords m data (i + k) = dwords m data i ++ dwords m (data + 4 * i) k := by
  induction k with
  | zero => exact (List.append_nil _).symm
  | succ k ih =>
    rw [← Nat.add_assoc, dwords_succ, ih, dwords_succ, List.append_assoc, Nat.mul_add,
      Nat.add_assoc data]

/-- Doublewords tell the bytes that they are made of. -/
theorem byte_of_dwords {m m' : Memory} {data i x : ℕ} (h : dwords m data i = dwords m' data i)
    (hx : x < 4 * i) : m (data + x) = m' (data + x) := by
  have hread := List.map_inj_left.1 h (x / 4) (List.mem_range.2 (by omega))
  have hlt := m.read_lt 4 (data + 4 * (x / 4))
  have hlt' := m'.read_lt 4 (data + 4 * (x / 4))
  have hnat := congrArg UInt32.toNat hread
  rw [UInt32.toNat_ofNat_of_lt' hlt, UInt32.toNat_ofNat_of_lt' hlt'] at hnat
  have hsplit : data + x = data + 4 * (x / 4) + x % 4 := by omega
  have hmod : x % 4 < 4 := Nat.mod_lt x (by decide)
  rw [hsplit, Memory.byte_of_read (m := m) (a := data + 4 * (x / 4)) hmod,
    Memory.byte_of_read (m := m') (a := data + 4 * (x / 4)) hmod, hnat]

/-- Every doubleword goes into the record. -/
theorem writeDwords_written (m : Memory) (data i : ℕ) :
    (writeDwords ports m data i d).written = d.written ++ dwords m data i := by
  induction i with
  | zero => exact (List.append_nil _).symm
  | succ i ih =>
    rw [dwords_succ, ← List.append_assoc, ← ih]
    rfl

/-- A doubleword is sent as its two words, the low one first. -/
theorem words_of_dword (m : Memory) (a : ℕ) :
    (UInt32.ofNat (m.read 4 a)).toUInt16 = .ofNat (m.read 2 a) ∧
      (UInt32.ofNat (m.read 4 a) >>> 16).toUInt16 = .ofNat (m.read 2 (a + 2)) := by
  have hsplit : m.read 4 a = m.read 2 a + 256 ^ 2 * m.read 2 (a + 2) := m.read_add 2 2 a
  have h₁ : m.read 2 a < 256 ^ 2 := m.read_lt 2 a
  have h₂ : m.read 2 (a + 2) < 256 ^ 2 := m.read_lt 2 (a + 2)
  constructor <;> refine UInt16.toNat_inj.1 ?_
  · rw [UInt32.toNat_toUInt16, UInt32.toNat_ofNat', UInt16.toNat_ofNat', hsplit]
    omega
  · rw [UInt32.toNat_toUInt16, UInt32.toNat_shiftRight, UInt32.toNat_ofNat', UInt16.toNat_ofNat',
      hsplit, Nat.shiftRight_eq_div_pow]
    change (_ % 2 ^ 32 / 2 ^ 16) % 2 ^ 16 = _
    omega

/-- The drive when the first `k` words of the sector have been taken, from the address `data`
    on. -/
def filled (d : PioDrive) (m : Memory) (data k : ℕ) : PioDrive :=
  { d with
    disk := Function.update d.disk d.sector fun x =>
      if x < 2 * k then m (data + x) else d.disk d.sector x
    word := k }

theorem filled_zero (hword : d.word = 0) (m : Memory) (data : ℕ) : d.filled m data 0 = d := by
  have hsame : (fun x => if x < 2 * 0 then m (data + x) else d.disk d.sector x) =
      d.disk d.sector := funext fun x => if_neg (Nat.not_lt_zero x)
  rw [filled, hsame, Function.update_eq_self, ← hword]

/-- One more word. -/
theorem takeWord_filled (hwrite : d.command = .write) (m : Memory) (data : ℕ) {k : ℕ}
    (hk : k < 256) : (d.filled m data k).takeWord (.ofNat (m.read 2 (data + 2 * k))) =
      d.filled m data (k + 1) := by
  have hread : m.read 2 (data + 2 * k) < 2 ^ 16 := m.read_lt 2 _
  have hsector : Memory.write (fun x => if x < 2 * k then m (data + x) else d.disk d.sector x) 2
      (2 * k) (m.read 2 (data + 2 * k)) =
      fun x => if x < 2 * (k + 1) then m (data + x) else d.disk d.sector x := by
    funext x
    by_cases hx : 2 * k ≤ x ∧ x < 2 * k + 2
    · obtain ⟨i, rfl⟩ := Nat.exists_eq_add_of_le hx.1
      have hi : i < 2 := by omega
      rw [Memory.write_of_mem hi, ← Memory.byte_of_read hi, if_pos (by omega), Nat.add_assoc]
    · rw [Memory.write_of_not_mem (by omega)]
      exact if_congr (by omega) rfl rfl
  have hcond : (d.filled m data k).command = .write ∧ (d.filled m data k).word < 256 := ⟨hwrite, hk⟩
  rw [takeWord, if_pos hcond]
  simp only [filled, Function.update_self, Function.update_idem, UInt16.toNat_ofNat',
    Nat.mod_eq_of_lt hread, hsector]

/-- Words after the last one are ignored. -/
theorem takeWord_full {w : UInt16} (hfull : 256 ≤ d.word) : d.takeWord w = d :=
  if_neg fun h => absurd h.2 (Nat.not_lt_of_le hfull)

/-- The drive with another record. -/
def record (d : PioDrive) (written : List UInt32) : PioDrive := { d with written := written }

theorem takeWord_record (d : PioDrive) (l : List UInt32) (w : UInt16) :
    (d.record l).takeWord w = (d.takeWord w).record l := by
  rw [takeWord, takeWord, record]
  split <;> rfl

/-- A doubleword for a sector that is not full. -/
theorem ioOut32_filled (hwrite : d.command = .write) (m : Memory) (data : ℕ) {i : ℕ}
    (hi : i < 128) (l : List UInt32) :
    ports.ioOut32 ((d.filled m data (2 * i)).record l) 0x1F0 (.ofNat (m.read 4 (data + 4 * i))) =
      (d.filled m data (2 * (i + 1))).record (l ++ [.ofNat (m.read 4 (data + 4 * i))]) := by
  obtain ⟨hlow, hhigh⟩ := words_of_dword m (data + 4 * i)
  have h₁ : data + 4 * i = data + 2 * (2 * i) := by omega
  have h₂ : data + 4 * i + 2 = data + 2 * (2 * i + 1) := by omega
  rw [h₁] at hlow
  rw [h₂] at hhigh
  change ((((d.filled m data (2 * i)).record l).takeWord _).takeWord _).record (l ++ _) = _
  rw [h₁] at hhigh ⊢
  rw [hlow, hhigh, takeWord_record, takeWord_record, takeWord_filled hwrite m data (by omega),
    takeWord_filled hwrite m data (by omega)]
  rfl

/-- The doublewords of a round of the driver: the first half of them fill the sector, and the
    others are ignored. -/
theorem writeDwords_eq (hwrite : d.command = .write) (hword : d.word = 0) (m : Memory)
    (data i : ℕ) : writeDwords ports m data i d =
      (d.filled m data (2 * min i 128)).record (d.written ++ dwords m data i) := by
  induction i with
  | zero =>
    rw [Nat.zero_min, Nat.mul_zero, filled_zero hword, dwords, List.range_zero, List.map_nil,
      List.append_nil]
    rfl
  | succ i ih =>
    rw [writeDwords, ih, dwords_succ, ← List.append_assoc]
    rcases Nat.lt_or_ge i 128 with hi | hi
    · rw [Nat.min_eq_left (Nat.le_of_lt hi), Nat.min_eq_left hi]
      exact ioOut32_filled hwrite m data hi _
    · have hfull : ∀ l, 256 ≤ ((d.filled m data 256).record l).word := fun _ => le_rfl
      rw [Nat.min_eq_right hi, Nat.min_eq_right (Nat.le_succ_of_le hi)]
      change ((((d.filled m data 256).record _).takeWord _).takeWord _).record (_ ++ _) = _
      rw [takeWord_full (hfull _), takeWord_full (hfull _)]
      rfl

/-- The disk with `n` sectors written, from the sector `s` on: a sector starts 1024 bytes after
    the one before in the source. -/
def wroteSectors (disk : ℕ → Memory) (s : ℕ) (m : Memory) (src n : ℕ) : ℕ → Memory := fun t =>
  if s ≤ t ∧ t < s + n then
    fun x => if x < 512 then m (src + 1024 * (t - s) + x) else disk t x
  else disk t

theorem wroteSectors_succ (disk : ℕ → Memory) (s : ℕ) (m : Memory) (src n : ℕ) :
    wroteSectors disk s m src (n + 1) = Function.update (wroteSectors disk s m src n) (s + n)
      fun x =>
        if x < 512 then m (src + 1024 * n + x) else wroteSectors disk s m src n (s + n) x := by
  funext t
  by_cases ht : t = s + n
  · subst ht
    rw [Function.update_self, wroteSectors, if_pos ⟨Nat.le_add_right s n, by omega⟩,
      wroteSectors, if_neg (by omega), Nat.add_sub_cancel_left]
  · rw [Function.update_of_ne ht, wroteSectors, wroteSectors]
    exact if_congr (by omega) rfl rfl

/-- The first sectors of a command. -/
theorem writeSectors_returns (hwrite : d.command = .write) (hd : d.Between s left)
    {j l : ℕ} (hasks : AsksEach d.status d.polls j l) (hj : j ≤ left) (m : Memory) (src : ℕ) :
    ∃ d', (writeSectors ports m src j d).Returns d' ∧ d'.status = d.status ∧
      d'.command = d.command ∧ d'.polls = l ∧ d'.Between (s + j) (left - j) ∧
      d'.disk = wroteSectors d.disk s m src j := by
  induction hasks with
  | zero =>
    have hnone : wroteSectors d.disk s m src 0 = d.disk := funext fun t => if_neg (by omega)
    exact ⟨d, returns_pure_iff.2 rfl, rfl, rfl, rfl, hd, hnone.symm⟩
  | @succ j l b r _ hb hr hasks ih =>
    obtain ⟨d₁, h₁, hs₁, hc₁, hp₁, hbtw₁, hdisk₁⟩ := ih (Nat.le_of_succ_le hj)
    have hleft : left - j = left - (j + 1) + 1 := by omega
    rw [hleft] at hbtw₁
    rw [← hs₁] at hb hr hasks
    obtain ⟨d₂, d₃, h₂, h₃, hk₃, hp₃, hbegun⟩ := waits_return hp₁ hb hr hasks hbtw₁.awaits
    have hwords := writeDwords_eq (hk₃.command.trans (hc₁.trans hwrite)) hbegun.word m
      (src + 4 * 256 * j) 256
    refine ⟨_, h₁.bind_iff.2 (h₂.bind_iff.2 (h₃.bind_iff.2 (returns_pure_iff.2 rfl))), ?_⟩
    rw [hwords]
    refine ⟨hk₃.status.trans hs₁, hk₃.command.trans hc₁, hp₃,
      ⟨rfl, hbegun.next, hbegun.left⟩, ?_⟩
    change Function.update d₃.disk d₃.sector _ = _
    rw [hbegun.sector, hk₃.disk, hdisk₁, wroteSectors_succ]
    rfl

/-- Polling sends no doublewords. -/
theorem written_of_pollUntil (h : (pollUntil ports.toPorts ready d).Returns d') :
    d'.written = d.written := by
  obtain ⟨n, _, rfl⟩ := polled_ports.pollUntil_returns_iff.1 h
  exact (d.iterate_poll n).1.written

/-- Writing sends 1024 bytes from the source for each sector, whatever the drive does. -/
theorem written_of_writeSectors {m : Memory} {src j : ℕ}
    (h : (writeSectors ports m src j d).Returns d') :
    d'.written = d.written ++ dwords m src (256 * j) := by
  induction j generalizing d' with
  | zero =>
    rw [writeSectors, returns_pure_iff] at h
    rw [h, Nat.mul_zero, dwords, List.range_zero, List.map_nil, List.append_nil]
  | succ j ih =>
    simp only [writeSectors, returns_bind_iff, returns_pure_iff] at h
    obtain ⟨d₁, h₁, d₂, h₂, d₃, h₃, rfl⟩ := h
    have hsucc : 256 * (j + 1) = 256 * j + 256 := Nat.mul_succ 256 j
    have haddr : src + 4 * 256 * j = src + 4 * (256 * j) := by rw [Nat.mul_assoc]
    rw [writeDwords_written, written_of_pollUntil h₃, written_of_pollUntil h₂, ih h₁, hsucc, haddr,
      dwords_add, List.append_assoc]

theorem written_of_ataPioWriteSectors {m : Memory} {src : ℕ} {firstSector : UInt32}
    {numSectors : UInt8}
    (h : (ataPioWriteSectors ports d m src firstSector numSectors).Returns d') :
    d'.written = d.written ++ dwords m src (256 * numSectors.toNat) := by
  simp only [ataPioWriteSectors, returns_bind_iff] at h
  obtain ⟨d₁, h₁, h₂⟩ := h
  rw [written_of_writeSectors h₂]
  have hcommand : (sendWriteCommand ports d₁ firstSector numSectors).written = d₁.written := rfl
  rw [hcommand, written_of_pollUntil h₁]

end PioDrive

open PioDrive

/-- Reading stores byte for byte the sectors asked for, and nothing else, however the drive
    makes the driver wait. -/
theorem ataPioReadSectors_delivers {d : PioDrive} {firstSector : UInt32} {numSectors : UInt8}
    (hn : 1 ≤ numSectors.toNat) (hlba : firstSector.toNat + numSectors.toNat ≤ 2 ^ 28)
    (hends : WaitsEnd d.status d.polls numSectors.toNat) (m : Memory) (dst : ℕ) :
    ∃ d' m', (ataPioReadSectors ports.toPorts (d, m) dst firstSector numSectors).Returns
        (d', m') ∧
      (∀ j < numSectors.toNat, ∀ b < 512,
        m' (dst + 512 * j + b) = d.disk (firstSector.toNat + j) b) ∧
      ∀ x, x < dst ∨ dst + 512 * numSectors.toNat ≤ x → m' x = m x := by
  obtain ⟨b, l, hb, hasks⟩ := hends
  obtain ⟨d₁, h₁, hk₁, hp₁, _⟩ := ataPioWaitBsy_returns hb
  have hne : numSectors ≠ 0 := fun h => by rw [h] at hn; exact absurd hn (by decide)
  have hc := commanded_start d₁ firstSector .read hne
  rw [← sendReadCommand_eq] at hc
  rw [← hp₁, ← hc.polls, ← hk₁.status, ← hc.status] at hasks
  obtain ⟨d₂, h₂, _⟩ := readSectors_returns hc.command hc.between hasks le_rfl m dst
  rw [hc.disk, hk₁.disk, Nat.mod_eq_of_lt (by omega)] at h₂
  refine ⟨d₂, _, h₁.bind_iff.2 h₂, fun j hj b hb => ?_, fun x hx => storeSectors_of_not_mem hx⟩
  have hdiv : (512 * j + b) / 512 = j := by omega
  have hmod : (512 * j + b) % 512 = b := by omega
  rw [Nat.add_assoc, storeSectors_of_lt (by omega), hdiv, hmod]

/-- After `ATA_PIO_write_sectors`, the sectors hold the source, of which no other byte was read,
    and so reading them gives the source back. -/
structure WritesBack (d : PioDrive) (m : Memory) (src : ℕ) (firstSector : UInt32)
    (numSectors : UInt8) (d' : PioDrive) : Prop where
  /-- Other bytes do not matter to what is sent. -/
  reads : ∀ m' : Memory, (∀ x, src ≤ x → x < src + 512 * numSectors.toNat → m' x = m x) →
    ∃ d'', (ataPioWriteSectors ports d m' src firstSector numSectors).Returns d'' ∧
      d''.written = d'.written
  stores : ∀ j < numSectors.toNat, ∀ b < 512,
    d'.disk (firstSector.toNat + j) b = m (src + 512 * j + b)
  keeps : ∀ s, s < firstSector.toNat ∨ firstSector.toNat + numSectors.toNat ≤ s →
    d'.disk s = d.disk s
  readsBack : ∀ status m₀ dst, WaitsEnd status 0 numSectors.toNat →
    ∃ d'' m₁, (ataPioReadSectors ports.toPorts ({ d' with status := status, polls := 0 }, m₀) dst
        firstSector numSectors).Returns (d'', m₁) ∧
      ∀ i < 512 * numSectors.toNat, m₁ (dst + i) = m (src + i)

section writesBack

variable {d d' : PioDrive} {m : Memory} {src : ℕ} {firstSector : UInt32} {numSectors : UInt8}

/-- Writing ends, with other sectors kept; those written hold every other 512 bytes. -/
theorem ataPioWriteSectors_stores (hn : 1 ≤ numSectors.toNat)
    (hlba : firstSector.toNat + numSectors.toNat ≤ 2 ^ 28)
    (hends : WaitsEnd d.status d.polls numSectors.toNat) (m : Memory) (src : ℕ) :
    ∃ d', (ataPioWriteSectors ports d m src firstSector numSectors).Returns d' ∧
      d'.disk = wroteSectors d.disk firstSector.toNat m src numSectors.toNat := by
  obtain ⟨b, l, hb, hasks⟩ := hends
  obtain ⟨d₁, h₁, hk₁, hp₁, _⟩ := ataPioWaitBsy_returns hb
  have hne : numSectors ≠ 0 := fun h => by rw [h] at hn; exact absurd hn (by decide)
  have hc := commanded_start d₁ firstSector .write hne
  rw [← sendWriteCommand_eq] at hc
  rw [← hp₁, ← hc.polls, ← hk₁.status, ← hc.status] at hasks
  obtain ⟨d₂, h₂, _, _, _, _, hdisk⟩ :=
    writeSectors_returns hc.command hc.between hasks le_rfl m src
  rw [hc.disk, hk₁.disk, Nat.mod_eq_of_lt (by omega)] at hdisk
  exact ⟨d₂, h₁.bind_iff.2 h₂, hdisk⟩

/-- The sectors hold the source if and only if it looks the same 512 bytes further on, 1024 bytes
    further on, and so on: always when there is one sector. -/
theorem storesSource_iff (hn : 1 ≤ numSectors.toNat)
    (hlba : firstSector.toNat + numSectors.toNat ≤ 2 ^ 28)
    (hends : WaitsEnd d.status d.polls numSectors.toNat)
    (hret : (ataPioWriteSectors ports d m src firstSector numSectors).Returns d') :
    (∀ j < numSectors.toNat, ∀ b < 512,
      d'.disk (firstSector.toNat + j) b = m (src + 512 * j + b)) ↔
    ∀ j < numSectors.toNat, ∀ b < 512, m (src + 1024 * j + b) = m (src + 512 * j + b) := by
  obtain ⟨d'', hret', hdisk⟩ := ataPioWriteSectors_stores hn hlba hends m src
  rw [hret.unique hret', hdisk]
  refine forall₂_congr fun j hj => forall₂_congr fun b hb => ?_
  rw [wroteSectors, if_pos ⟨Nat.le_add_right _ j, by omega⟩, Nat.add_sub_cancel_left, if_pos hb]

/-- Writing never does what it should: for every sector, 512 bytes are read that are not its
    own, up to `512 * n` bytes behind the source. -/
theorem not_writesBack (hn : 1 ≤ numSectors.toNat) :
    ¬∃ d', (ataPioWriteSectors ports d m src firstSector numSectors).Returns d' ∧
      WritesBack d m src firstSector numSectors d' := by
  rintro ⟨d', hret, h⟩
  -- The first byte behind the source is changed: the doublewords sent are others.
  obtain ⟨d'', hret', hwritten⟩ := h.reads
    (m.set (src + 512 * numSectors.toNat) (m (src + 512 * numSectors.toNat) + 1))
    fun x _ hx => Memory.set_of_ne _ _ (by omega)
  rw [written_of_ataPioWriteSectors hret, written_of_ataPioWriteSectors hret'] at hwritten
  have hbyte := byte_of_dwords (List.append_cancel_left hwritten)
    (x := 512 * numSectors.toNat) (by omega)
  rw [Memory.set_self] at hbyte
  exact absurd hbyte (by simp)

end writesBack

/-! ## A drive -/

/-- A drive with the disk, always asking for data. -/
def eagerDrive (disk : ℕ → Memory) : PioDrive :=
  { disk := disk, status := fun _ => 0x48, polls := 0, drive := 0, count := 0, lbaLow := 0,
    lbaMid := 0, lbaHigh := 0, command := .none, next := 0, left := 0, sector := 0, word := 256,
    written := [] }

/-- No wait takes more than a poll. -/
theorem waitsEnd_eagerDrive (polls n : ℕ) : WaitsEnd (fun _ => 0x48) polls n := by
  have hbsy : ∀ k, EndsBsy (fun _ => 0x48) k k := fun k =>
    ⟨le_rfl, show (0x48 : UInt8) &&& 0x80 = 0 by decide, fun i h₁ h₂ => by omega⟩
  have hdrq : ∀ k, EndsDrq (fun _ => 0x48) k k := fun k =>
    ⟨le_rfl, show (0x48 : UInt8) &&& 0x40 ≠ 0 by decide, fun i h₁ h₂ => by omega⟩
  suffices h : ∃ l, AsksEach (fun _ => 0x48) (polls + 1) n l by
    obtain ⟨l, hl⟩ := h
    exact ⟨polls, l, hbsy polls, hl⟩
  induction n with
  | zero => exact ⟨_, .zero⟩
  | succ n ih =>
    obtain ⟨l, hl⟩ := ih
    exact ⟨_, hl.succ (hbsy l) (hdrq (l + 1)) (by decide)⟩

/-- The sector number of every byte. -/
def numberedDisk : ℕ → Memory := fun s _ => .ofNat s

theorem ataPioReadSectors_delivers_eager :
    ∃ d' m', (ataPioReadSectors ports.toPorts (eagerDrive numberedDisk, fun _ => 0) 0x1000 5
        2).Returns (d', m') ∧
      (∀ j < 2, ∀ b < 512, m' (0x1000 + 512 * j + b) = numberedDisk (5 + j) b) ∧
      ∀ x, x < 0x1000 ∨ 0x1000 + 512 * 2 ≤ x → m' x = 0 :=
  @ataPioReadSectors_delivers (eagerDrive numberedDisk) 5 2 (by decide) (by decide)
    (waitsEnd_eagerDrive 0 2) (fun _ => 0) 0x1000

/-- A source of blocks of 512 bytes with their number. -/
def numberedSource : Memory := fun x => .ofNat (x / 512)

theorem not_writesBack_one :
    ¬∃ d', (ataPioWriteSectors ports (eagerDrive numberedDisk) numberedSource 0 5 1).Returns d' ∧
      WritesBack (eagerDrive numberedDisk) numberedSource 0 5 1 d' :=
  not_writesBack (by decide)

/-- The second of two sectors gets the third block. -/
theorem not_writesBack_two :
    ¬∃ d', (ataPioWriteSectors ports (eagerDrive numberedDisk) numberedSource 0 5 2).Returns d' ∧
      WritesBack (eagerDrive numberedDisk) numberedSource 0 5 2 d' := by
  rintro ⟨d', hret, h⟩
  have hblock := (storesSource_iff (by decide) (by decide) (waitsEnd_eagerDrive 0 2) hret).1
    h.stores 1 (by decide) 0 (by decide)
  exact absurd hblock (by decide)

end Cboot
