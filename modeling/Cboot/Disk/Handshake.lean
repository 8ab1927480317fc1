import Cboot.Disk.Ata

/-!
# Waiting for the drive

What the driver's waiting is for: data goes through the data port only when the drive
asks for it. The drive may give any values at its status port (`Drive`), and keeps a log
of what it is asked. A burst of 256 words on the data port may start (`BurstAllowed`)
when the last status read had DRQ set, after one with BSY clear since the command or the
burst before.

* `Transfers`: both functions of the driver go through the same states, sector by sector, but
  for the number of words that they transfer for a sector;
* `Transfers.respects_iff`: as `ATA_PIO_wait_DRQ` waits for RDY, every burst of 256 words for a
  sector is allowed if and only if the drive sets DRQ along with it;
* `Transfers.respects_iff_of_two`: two bursts for a sector are never allowed, as the status is not
  read between them;
* `ataPio_respects_iff`: the one is what the reader does, and the other what the writer does.
-/

namespace Cboot

open Fueled

/-! ## The drive -/

/-- What a drive sees of the driver: its status is read, it is sent a command, or a word goes
    through its data port. -/
inductive Access
  | status (value : UInt8)
  | command
  | data
  deriving DecidableEq

/-- A drive that gives any values: of its status port, poll after poll, and of its data port,
    depending on what has happened. -/
structure Drive where
  status : ℕ → UInt8
  words : List Access → UInt16
  polls : ℕ
  log : List Access

namespace Drive

/-- A read of the status port is logged with its value. -/
def ioIn8 (d : Drive) (port : UInt16) : UInt8 × Drive :=
  if port = 0x1F7 then
    (d.status d.polls,
      { d with polls := d.polls + 1, log := d.log ++ [.status (d.status d.polls)] })
  else (0, d)

/-- A word of the data port. -/
def ioIn16 (d : Drive) (port : UInt16) : UInt16 × Drive :=
  if port = 0x1F0 then (d.words d.log, { d with log := d.log ++ [.data] }) else (0, d)

/-- Only commands are logged. -/
def ioOut8 (d : Drive) (port : UInt16) (_data : UInt8) : Drive :=
  if port = 0x1F7 then { d with log := d.log ++ [.command] } else d

/-- The port is one of 16 bits: two words go through it. -/
def ioOut32 (d : Drive) (port : UInt16) (_data : UInt32) : Drive :=
  if port = 0x1F0 then { d with log := d.log ++ [.data, .data] } else d

/-- The ports of a machine with the drive. -/
def ports : WritePorts Drive := ⟨⟨ioIn8, ioIn16, ioOut8⟩, ioOut32⟩

/-- A drive that has not been asked anything. -/
def fresh (status : ℕ → UInt8) (words : List Access → UInt16) : Drive := ⟨status, words, 0, []⟩

/-- The accesses of the polls from the number `k` up to the number `n`. -/
def statuses (status : ℕ → UInt8) (k n : ℕ) : List Access :=
  (List.range' k (n - k)).map fun i => .status (status i)

/-- The drive when the poll number `n` has been taken. -/
def polled (d : Drive) (n : ℕ) : Drive :=
  { d with polls := n + 1, log := d.log ++ statuses d.status d.polls (n + 1) }

/-- The drive when the command has been sent. -/
def commanded (d : Drive) : Drive := { d with log := d.log ++ [.command] }

/-- The drive when `n` words have gone through its data port. -/
def passed (d : Drive) (n : ℕ) : Drive := { d with log := d.log ++ .replicate n .data }

end Drive

/-! ## Bursts -/

/-- A burst may start after these accesses. -/
def BurstAllowed (log : List Access) : Prop :=
  ∃ log₀ values value, log = log₀ ++ List.map Access.status values ++ [.status value] ∧
    (∃ v ∈ values, v &&& 0x80 = 0) ∧ value &&& 0x08 ≠ 0

/-- Every burst started when it was allowed. A burst is of 256 words, so that one starts
    wherever their number is a multiple of 256. -/
def RespectsDrq (log : List Access) : Prop :=
  ∀ log₁ log₂, log = log₁ ++ .data :: log₂ → log₁.count .data % 256 = 0 → BurstAllowed log₁

/-! ## The driver -/

section driver

variable (status : ℕ → UInt8) (words : List Access → UInt16)

/-- Each state that `ATA_PIO_read_sectors` comes to, after `j` of the sectors, whether or not
    it goes on to the end, which is after all `numSectors` of them. -/
def ReadState (dst : ℕ) (m : Memory) (firstSector : UInt32) (numSectors : UInt8) (j : ℕ)
    (d' : Drive) : Prop :=
  ∃ m', (do
    let d ← ataPioWaitBsy Drive.ports.toPorts (Drive.fresh status words)
    let d := sendReadCommand Drive.ports.toPorts d firstSector numSectors
    readSectors Drive.ports.toPorts dst j (d, m)).Returns (d', m')

/-- Each state that `ATA_PIO_write_sectors` comes to, after `j` of the sectors. -/
def WriteState (src : ℕ) (m : Memory) (firstSector : UInt32) (numSectors : UInt8) (j : ℕ)
    (d' : Drive) : Prop :=
  (do
    let d ← ataPioWaitBsy Drive.ports.toPorts (Drive.fresh status words)
    let d := sendWriteCommand Drive.ports d firstSector numSectors
    writeSectors Drive.ports m src j d).Returns d'

end driver

/-- `n` is the number of the poll that ends a wait for BSY to clear. -/
def EndsBsy (status : ℕ → UInt8) : ℕ → ℕ → Prop := FirstFrom fun i => status i &&& 0x80 = 0

/-- `n` is the number of the poll that ends what is called a wait for DRQ. -/
def EndsDrq (status : ℕ → UInt8) : ℕ → ℕ → Prop := FirstFrom fun i => status i &&& 0x40 ≠ 0

/-- A function of the driver goes through the states `P j` after `j` sectors: it waits, sends
    the command, and then waits twice for `c` words. -/
structure Transfers (start : Drive) (c : ℕ) (P : ℕ → Drive → Prop) : Prop where
  zero : ∀ d', P 0 d' ↔ ∃ b, EndsBsy start.status start.polls b ∧ d' = (start.polled b).commanded
  succ : ∀ j d', P (j + 1) d' ↔ ∃ d b r, P j d ∧ EndsBsy d.status d.polls b ∧
    EndsDrq d.status (b + 1) r ∧ d' = ((d.polled b).polled r).passed c

namespace Drive

variable {d d' : Drive} {ready : UInt8 → Bool}

@[simp] theorem polled_polls (d : Drive) (n : ℕ) : (d.polled n).polls = n + 1 := rfl

theorem passed_zero (d : Drive) : d.passed 0 = d := by
  rw [passed, List.replicate_zero, List.append_nil]

/-- One more access. -/
theorem passed_succ (d : Drive) (n : ℕ) :
    { d.passed n with log := (d.passed n).log ++ [.data] } = d.passed (n + 1) := by
  rw [passed, passed, List.replicate_succ', List.append_assoc]

theorem statuses_self (status : ℕ → UInt8) (k : ℕ) :
    statuses status k (k + 1) = [.status (status k)] := by
  rw [statuses, Nat.add_sub_cancel_left]
  rfl

/-- A poll. -/
theorem ioIn8_status (d : Drive) : d.ioIn8 0x1F7 = (d.status d.polls, d.polled d.polls) := by
  rw [ioIn8, if_pos rfl, polled, statuses_self]

theorem statuses_append (status : ℕ → UInt8) {k n l : ℕ} (h₁ : k ≤ n) (h₂ : n ≤ l) :
    statuses status k n ++ statuses status n l = statuses status k l := by
  obtain ⟨i, rfl⟩ := Nat.exists_eq_add_of_le h₁
  obtain ⟨j, rfl⟩ := Nat.exists_eq_add_of_le h₂
  rw [statuses, statuses, statuses, ← List.map_append, Nat.add_sub_cancel_left,
    Nat.add_sub_cancel_left, Nat.add_assoc, Nat.add_sub_cancel_left, List.range'_append_1]

/-- Polls after polls. -/
theorem polled_polled {n l : ℕ} (h₁ : d.polls ≤ n) (h₂ : n < l) :
    (d.polled n).polled l = d.polled l := by
  rw [polled, polled, polled, List.append_assoc, statuses_append d.status (by omega) (by omega)]

theorem polled_ports :
    Polled ports.toPorts Drive.status Drive.polls fun d => d.polled d.polls where
  ioIn8 := ioIn8_status
  status_poll _ := rfl
  polls_poll _ := rfl

theorem iterate_polled (d : Drive) (n : ℕ) :
    (fun d => d.polled d.polls)^[n + 1] d = d.polled (d.polls + n) := by
  induction n with
  | zero => rfl
  | succ n ih =>
    rw [Function.iterate_succ_apply', ih]
    exact polled_polled (by omega) (Nat.lt_succ_self _)

/-- Polling ends with the first status that is waited for, if there is one. -/
theorem pollUntil_returns_iff : (pollUntil ports.toPorts ready d).Returns d' ↔
    ∃ n, FirstFrom (fun i => ready (d.status i) = true) d.polls n ∧ d' = d.polled n := by
  rw [polled_ports.pollUntil_returns_iff]
  constructor
  · rintro ⟨n, hn, rfl⟩
    exact ⟨_, hn, iterate_polled d n⟩
  · rintro ⟨n, hn, rfl⟩
    obtain ⟨j, rfl⟩ := Nat.exists_eq_add_of_le hn.1
    exact ⟨j, hn, (iterate_polled d j).symm⟩

theorem ataPioWaitBsy_returns_iff : (ataPioWaitBsy ports.toPorts d).Returns d' ↔
    ∃ n, EndsBsy d.status d.polls n ∧ d' = d.polled n := by
  rw [ataPioWaitBsy, pollUntil_returns_iff]
  simp only [EndsBsy, beq_iff_eq]

theorem ataPioWaitDrq_returns_iff : (ataPioWaitDrq ports.toPorts d).Returns d' ↔
    ∃ n, EndsDrq d.status d.polls n ∧ d' = d.polled n := by
  rw [ataPioWaitDrq, pollUntil_returns_iff]
  simp only [EndsDrq, bne_iff_ne]

/-- The words of a burst, read. -/
theorem readWords_fst (dest : ℕ) (m : Memory) (i : ℕ) :
    (readWords ports.toPorts dest i (d, m)).1 = d.passed i := by
  induction i with
  | zero => exact (passed_zero d).symm
  | succ i ih =>
    rw [← passed_succ, ← ih]
    rfl

/-- The doublewords for a sector, written: two words each. -/
theorem writeDwords_eq (m : Memory) (data i : ℕ) :
    writeDwords ports m data i d = d.passed (2 * i) := by
  induction i with
  | zero => exact (passed_zero d).symm
  | succ i ih =>
    rw [Nat.mul_succ, ← passed_succ, ← passed_succ, ← ih, List.append_assoc]
    rfl

end Drive

/-! ## The states of the driver -/

section states

variable (status : ℕ → UInt8) (words : List Access → UInt16) (m : Memory) (p : ℕ)
  (firstSector : UInt32) (numSectors : UInt8)

theorem transfers_read : Transfers (Drive.fresh status words) 256
    (ReadState status words p m firstSector numSectors) where
  zero := by
    intro d'
    simp only [ReadState, returns_bind_iff, readSectors, returns_pure_iff,
      Drive.ataPioWaitBsy_returns_iff]
    constructor
    · rintro ⟨m', _, ⟨b, hb, rfl⟩, h⟩
      exact ⟨b, hb, (Prod.mk.inj h).1⟩
    · rintro ⟨b, hb, rfl⟩
      exact ⟨m, _, ⟨b, hb, rfl⟩, rfl⟩
  succ := by
    intro j d'
    simp only [ReadState, returns_bind_iff, readSectors, returns_pure_iff,
      Drive.ataPioWaitBsy_returns_iff, Drive.ataPioWaitDrq_returns_iff]
    constructor
    · rintro ⟨m', d₀, h₀, ⟨d, m₁⟩, h₁, _, ⟨b, hb, rfl⟩, _, ⟨r, hr, rfl⟩, h⟩
      refine ⟨d, b, r, ⟨m₁, d₀, h₀, h₁⟩, hb, hr, ?_⟩
      rw [← Drive.readWords_fst (p + 512 * j) m₁, ← h]
    · rintro ⟨d, b, r, ⟨m₁, d₀, h₀, h₁⟩, hb, hr, rfl⟩
      rw [← Drive.readWords_fst (p + 512 * j) m₁]
      cases hwords :
        readWords Drive.ports.toPorts (p + 512 * j) 256 ((d.polled b).polled r, m₁) with
      | mk d₁ m₂ =>
        exact ⟨m₂, d₀, h₀, ⟨d, m₁⟩, h₁, _, ⟨b, hb, rfl⟩, _, ⟨r, hr, rfl⟩, hwords.symm⟩

theorem transfers_write : Transfers (Drive.fresh status words) (2 * 256)
    (WriteState status words p m firstSector numSectors) where
  zero := by
    intro d'
    simp only [WriteState, returns_bind_iff, writeSectors, returns_pure_iff,
      Drive.ataPioWaitBsy_returns_iff]
    constructor
    · rintro ⟨_, ⟨b, hb, rfl⟩, rfl⟩
      exact ⟨b, hb, rfl⟩
    · rintro ⟨b, hb, rfl⟩
      exact ⟨_, ⟨b, hb, rfl⟩, rfl⟩
  succ := by
    intro j d'
    simp only [WriteState, returns_bind_iff, writeSectors, returns_pure_iff,
      Drive.ataPioWaitBsy_returns_iff, Drive.ataPioWaitDrq_returns_iff, Drive.writeDwords_eq]
    constructor
    · rintro ⟨d₀, h₀, d, h₁, _, ⟨b, hb, rfl⟩, _, ⟨r, hr, rfl⟩, rfl⟩
      exact ⟨d, b, r, ⟨d₀, h₀, h₁⟩, hb, hr, rfl⟩
    · rintro ⟨d, b, r, ⟨d₀, h₀, h₁⟩, hb, hr, rfl⟩
      exact ⟨d₀, h₀, d, h₁, _, ⟨b, hb, rfl⟩, _, ⟨r, hr, rfl⟩, rfl⟩

end states

/-! ## When the bursts are allowed -/

/-- The number of polls taken before the wait for the sector number `j`. -/
inductive PollsBefore (status : ℕ → UInt8) : (j polls : ℕ) → Prop
  | command {b : ℕ} : EndsBsy status 0 b → PollsBefore status 0 (b + 1)
  | sector {j k b r : ℕ} : PollsBefore status j k → EndsBsy status k b →
      EndsDrq status (b + 1) r → PollsBefore status (j + 1) (r + 1)

/-- The status that ends what is called a wait for DRQ, for each of `n` sectors, has DRQ set. -/
def SetsDrq (status : ℕ → UInt8) (n : ℕ) : Prop :=
  ∀ j < n, ∀ k b r, PollsBefore status j k → EndsBsy status k b → EndsDrq status (b + 1) r →
    status r &&& 0x08 ≠ 0

/-- No burst is started for any of `n` sectors: one of the waits before it does not end. -/
def StartsNone (status : ℕ → UInt8) (n : ℕ) : Prop :=
  ∀ j < n, ∀ k b r, PollsBefore status j k → EndsBsy status k b → ¬EndsDrq status (b + 1) r

section bursts

variable {log : List Access} {status : ℕ → UInt8} {k b r : ℕ}

/-- No data goes through in a poll. -/
theorem count_statuses (status : ℕ → UInt8) (k n : ℕ) :
    (Drive.statuses status k n).count .data = 0 := by
  refine List.count_eq_zero.2 fun h => ?_
  obtain ⟨i, _, hi⟩ := List.mem_map.1 h
  cases hi

/-- The accesses of a wait for BSY and one for DRQ allow a burst if and only if the last
    status has DRQ set. -/
theorem burstAllowed_iff (hb : EndsBsy status k b) (hr : EndsDrq status (b + 1) r) :
    BurstAllowed (log ++ Drive.statuses status k (r + 1)) ↔ status r &&& 0x08 ≠ 0 := by
  have hkr : k ≤ r := Nat.le_trans hb.1 (Nat.le_of_succ_le hr.1)
  have hlast : Drive.statuses status k (r + 1) =
      Drive.statuses status k r ++ [.status (status r)] := by
    rw [← Drive.statuses_append status hkr (Nat.le_succ r), Drive.statuses_self]
  rw [hlast, ← List.append_assoc]
  constructor
  · rintro ⟨log₀, values, value, heq, _, hdrq⟩
    obtain ⟨_, h⟩ := List.append_inj' heq rfl
    cases h
    exact hdrq
  · intro hdrq
    refine ⟨log, (List.range' k (r - k)).map status, status r, ?_, ⟨status b, ?_, hb.2.1⟩, hdrq⟩
    · rw [List.map_map]
      rfl
    · refine List.mem_map.2 ⟨b, List.mem_range'_1.2 ⟨hb.1, ?_⟩, rfl⟩
      have := hr.1
      omega

/-- One more access. -/
theorem respectsDrq_concat {x : Access} : RespectsDrq (log ++ [x]) ↔
    RespectsDrq log ∧ (x = .data → log.count .data % 256 = 0 → BurstAllowed log) := by
  constructor
  · intro h
    refine ⟨fun log₁ log₂ heq => h log₁ (log₂ ++ [x]) ?_, fun hx => h log [] ?_⟩
    · rw [heq, List.append_assoc, List.cons_append]
    · rw [hx]
  · rintro ⟨h, hx⟩ log₁ log₂ heq
    -- The access is the last one, or one of those before.
    rcases List.eq_nil_or_concat log₂ with rfl | ⟨log₂, y, rfl⟩
    · obtain ⟨rfl, hdata⟩ := List.append_inj' heq rfl
      exact hx (List.singleton_inj.1 hdata)
    · rw [List.concat_eq_append, ← List.cons_append, ← List.append_assoc] at heq
      exact h log₁ log₂ (List.append_inj' heq rfl).1

/-- Polls do not matter. -/
theorem respectsDrq_statuses (k n : ℕ) :
    RespectsDrq (log ++ Drive.statuses status k n) ↔ RespectsDrq log := by
  rcases Nat.le_total n k with h | h
  · rw [Drive.statuses, Nat.sub_eq_zero_of_le h, List.range'_zero, List.map_nil, List.append_nil]
  · induction n, h using Nat.le_induction with
    | base => rw [Drive.statuses, Nat.sub_self, List.range'_zero, List.map_nil, List.append_nil]
    | succ n hn ih =>
      rw [← Drive.statuses_append status hn (Nat.le_succ n), Drive.statuses_self,
        ← List.append_assoc, respectsDrq_concat, ih]
      exact and_iff_left fun h => by cases h

/-- A burst has to be allowed when it starts. -/
theorem respectsDrq_burst (hlog : log.count .data % 256 = 0) {n : ℕ} (h₀ : 0 < n) (hn : n ≤ 256) :
    RespectsDrq (log ++ .replicate n .data) ↔ RespectsDrq log ∧ BurstAllowed log := by
  induction n, h₀ using Nat.le_induction with
  | base =>
    refine respectsDrq_concat.trans (and_congr_right fun _ => ?_)
    exact ⟨fun h => h rfl hlog, fun h _ _ => h⟩
  | succ n h₀ ih =>
    rw [List.replicate_succ', ← List.append_assoc, respectsDrq_concat, ih (Nat.le_of_succ_le hn),
      List.count_append, List.count_replicate_self]
    exact and_iff_left fun _ hcount => absurd hcount (by omega)

/-- Two bursts are too many: the second one starts when the first one has ended, and not when the
    status has been read. -/
theorem not_respectsDrq_two (hlog : log.count .data % 256 = 0) :
    ¬RespectsDrq (log ++ .replicate (2 * 256) .data) := by
  intro h
  have hsplit : List.replicate (2 * 256) Access.data =
      List.replicate 255 .data ++ [.data] ++ .data :: List.replicate 255 .data := by
    rw [← List.replicate_succ', ← List.replicate_succ, List.replicate_append_replicate]
  obtain ⟨log₀, values, value, heq, _⟩ := h (log ++ (List.replicate 255 .data ++ [.data]))
    (List.replicate 255 .data) (by rw [hsplit, List.append_assoc log]) (by
      rw [← List.replicate_succ', List.count_append, List.count_replicate_self]
      omega)
  -- The last access before it is one of data.
  rw [← List.append_assoc] at heq
  obtain ⟨_, hlast⟩ := List.append_inj' heq rfl
  cases hlast

end bursts

/-! ## The driver respects the drive -/

section respects

variable {start : Drive} {c : ℕ} {P : ℕ → Drive → Prop} {j n : ℕ}

/-- What is known of every state. -/
theorem Transfers.state (h : Transfers start c P) (h₀ : start.polls = 0) (hlog : start.log = [])
    {d : Drive} (hd : P j d) : d.status = start.status ∧ PollsBefore start.status j d.polls ∧
      d.log.count .data = c * j := by
  induction j generalizing d with
  | zero =>
    obtain ⟨b, hb, rfl⟩ := (h.zero d).1 hd
    rw [h₀] at hb
    refine ⟨rfl, .command hb, ?_⟩
    rw [Drive.commanded, Drive.polled, List.count_append, List.count_append, hlog, count_statuses]
    rfl
  | succ j ih =>
    obtain ⟨d, b, r, hd₀, hb, hr, rfl⟩ := (h.succ j _).1 hd
    obtain ⟨hs, hk, hcount⟩ := ih hd₀
    rw [hs] at hb hr
    refine ⟨hs, .sector hk hb hr, ?_⟩
    rw [Drive.passed, Drive.polled, Drive.polled, List.count_append, List.count_append,
      List.count_append, count_statuses, count_statuses, hcount, List.count_replicate_self,
      Nat.add_zero, Nat.add_zero, Nat.mul_succ]

/-- Every number of polls is taken in some state. -/
theorem Transfers.exists_state (h : Transfers start c P) (h₀ : start.polls = 0)
    (hlog : start.log = []) {k : ℕ} (hk : PollsBefore start.status j k) :
    ∃ d, P j d ∧ d.polls = k := by
  induction hk with
  | command hb => exact ⟨_, (h.zero _).2 ⟨_, h₀ ▸ hb, rfl⟩, rfl⟩
  | sector hk hb hr ih =>
    obtain ⟨d, hd, rfl⟩ := ih
    have hs := (h.state h₀ hlog hd).1
    exact ⟨_, (h.succ _ _).2 ⟨d, _, _, hd, hs ▸ hb, hs ▸ hr, rfl⟩, rfl⟩

/-- One more sector: its burst is allowed if and only if the drive has set DRQ. -/
theorem Transfers.step (h : Transfers start 256 P) (h₀ : start.polls = 0) (hlog : start.log = [])
    {d : Drive} (hd : P j d) {b r : ℕ} (hb : EndsBsy start.status d.polls b)
    (hr : EndsDrq start.status (b + 1) r) :
    RespectsDrq (((d.polled b).polled r).passed 256).log ↔
      RespectsDrq d.log ∧ start.status r &&& 0x08 ≠ 0 := by
  obtain ⟨hs, _, hcount⟩ := h.state h₀ hlog hd
  have hlt : b < r := hr.1
  rw [Drive.polled_polled hb.1 hlt, Drive.passed, Drive.polled, hs,
    respectsDrq_burst _ (by decide) le_rfl, respectsDrq_statuses, burstAllowed_iff hb hr]
  rw [List.count_append, count_statuses, hcount]
  omega

/-- Before the first sector there is no burst. -/
theorem Transfers.respects_zero (h : Transfers start c P) (hlog : start.log = []) {d : Drive}
    (hd : P 0 d) : RespectsDrq d.log := by
  obtain ⟨b, _, rfl⟩ := (h.zero d).1 hd
  rw [Drive.commanded, respectsDrq_concat, Drive.polled, respectsDrq_statuses, hlog]
  refine ⟨fun log₁ log₂ heq => ?_, fun h => by cases h⟩
  exact absurd heq.symm (by simp)

/-- In all states, bursts have only started when they were allowed if and only if the drive
    sets DRQ along with RDY. -/
theorem Transfers.respects_iff (h : Transfers start 256 P) (h₀ : start.polls = 0)
    (hlog : start.log = []) :
    (∀ j ≤ n, ∀ d, P j d → RespectsDrq d.log) ↔ SetsDrq start.status n := by
  constructor
  · intro hall j hj k b r hk hb hr
    obtain ⟨d, hd, rfl⟩ := h.exists_state h₀ hlog hk
    have hs := (h.state h₀ hlog hd).1
    exact ((h.step h₀ hlog hd hb hr).1
      (hall (j + 1) hj _ ((h.succ j _).2 ⟨d, b, r, hd, hs ▸ hb, hs ▸ hr, rfl⟩))).2
  · intro hsets j hj
    induction j with
    | zero => exact fun d hd => h.respects_zero hlog hd
    | succ j ih =>
      intro d' hd'
      obtain ⟨d, b, r, hd, hb, hr, rfl⟩ := (h.succ j d').1 hd'
      obtain ⟨hs, hk, _⟩ := h.state h₀ hlog hd
      rw [hs] at hb hr
      exact (h.step h₀ hlog hd hb hr).2
        ⟨ih (Nat.le_of_succ_le hj) d hd, hsets j hj _ b r hk hb hr⟩

/-- With two bursts for a sector, they have only started when they were allowed if and only if none
    has started. -/
theorem Transfers.respects_iff_of_two (h : Transfers start (2 * 256) P) (h₀ : start.polls = 0)
    (hlog : start.log = []) :
    (∀ j ≤ n, ∀ d, P j d → RespectsDrq d.log) ↔ StartsNone start.status n := by
  constructor
  · intro hall j hj k b r hk hb hr
    obtain ⟨d, hd, rfl⟩ := h.exists_state h₀ hlog hk
    obtain ⟨hs, _, hcount⟩ := h.state h₀ hlog hd
    have hnext := hall (j + 1) hj _ ((h.succ j _).2 ⟨d, b, r, hd, hs ▸ hb, hs ▸ hr, rfl⟩)
    refine not_respectsDrq_two ?_ hnext
    rw [Drive.polled, Drive.polled, List.count_append, List.count_append, count_statuses,
      count_statuses, hcount]
    omega
  · intro hnone j hj d hd
    cases j with
    | zero => exact h.respects_zero hlog hd
    | succ j =>
      obtain ⟨d₀, b, r, hd₀, hb, hr, _⟩ := (h.succ j d).1 hd
      obtain ⟨hs, hk, _⟩ := h.state h₀ hlog hd₀
      rw [hs] at hb hr
      exact absurd hr (hnone j hj _ b r hk hb)

end respects

section driver

variable (status : ℕ → UInt8) (words : List Access → UInt16) (m : Memory) (p : ℕ)
  (firstSector : UInt32) (numSectors : UInt8)

/-- Whatever the driver is asked to read, its bursts only start when the drive allows them, in every
    state that it comes to, if and only if the drive sets DRQ along with RDY. Whatever it is asked
    to write, they do if and only if none starts. -/
theorem ataPio_respects_iff :
    ((∀ j ≤ numSectors.toNat, ∀ d', ReadState status words p m firstSector numSectors j d' →
      RespectsDrq d'.log) ↔ SetsDrq status numSectors.toNat) ∧
    ((∀ j ≤ numSectors.toNat, ∀ d', WriteState status words p m firstSector numSectors j d' →
      RespectsDrq d'.log) ↔ StartsNone status numSectors.toNat) :=
  ⟨(transfers_read status words m p firstSector numSectors).respects_iff rfl rfl,
    (transfers_write status words m p firstSector numSectors).respects_iff_of_two rfl rfl⟩

/-- With a status that is always the same and ready, the waits end at once. -/
theorem endsBsy_constant {v : UInt8} (h : v &&& 0x80 = 0) (k : ℕ) :
    EndsBsy (fun _ => v) k k := ⟨le_rfl, h, fun i h₁ h₂ => by omega⟩

theorem endsDrq_constant {v : UInt8} (h : v &&& 0x40 ≠ 0) (k : ℕ) :
    EndsDrq (fun _ => v) k k := ⟨le_rfl, h, fun i h₁ h₂ => by omega⟩

/-- A drive that is ready, but has no data yet, is read all the same; and one that asks for one
    sector is given the words of two. -/
theorem not_respectsDrq_ready :
    (¬∀ j ≤ 1, ∀ d', ReadState (fun _ => 0x40) (fun _ => 0) 0 (fun _ => 0) 0 1 j d' →
      RespectsDrq d'.log) ∧
    ¬∀ j ≤ 1, ∀ d', WriteState (fun _ => 0x48) (fun _ => 0) 0 (fun _ => 0) 0 1 j d' →
      RespectsDrq d'.log := by
  constructor
  · intro h
    have hsets := ((transfers_read (fun _ => 0x40) (fun _ => 0) (fun _ => 0) 0 0 1).respects_iff
      rfl rfl).1 h
    have hbsy := endsBsy_constant (v := 0x40) (by decide)
    exact hsets 0 Nat.one_pos 1 1 2 (.command (hbsy 0)) (hbsy 1) (endsDrq_constant (by decide) 2)
      (by decide)
  · intro h
    have hnone := ((transfers_write (fun _ => 0x48) (fun _ => 0) (fun _ => 0) 0 0
      1).respects_iff_of_two rfl rfl).1 h
    have hbsy := endsBsy_constant (v := 0x48) (by decide)
    exact hnone 0 Nat.one_pos 1 1 2 (.command (hbsy 0)) (hbsy 1) (endsDrq_constant (by decide) 2)

end driver

end Cboot
