import Cboot.Kernel.Greeting

/-!
# From the BIOS to the kernel

The two stages in front of `cboot_main`: `mbr.asm`, which asks the BIOS for the bootloader and for
the map of memory, and `start.asm`, which checks the processor and sets the page tables up. What
the BIOS does is given by its answers. The stacks of both stages are left out.

* `start_spec`: the tables are only set up on a processor with long mode, and on another one there
  is a message on the screen;
* `memoryReady_mbr`: with the strings of the bootloader on the disk, they and the map are in memory
  when `cboot_main` is called;
* `power_on_greets`: from the BIOS to the greeting of the kernel.
-/

namespace Cboot

open AtaDevice Fueled

/-! ## The first stage -/

/-- The answers of the BIOS: whether a request fails, and the regions of memory. -/
structure Bios where
  readFails : Bool
  mapFails : Bool
  regions : List BiosMemoryRegion
  a20Fails : Bool

/-- `puts` of the MBR, which begins a new line after the text. -/
def biosPuts (lines : List (List UInt8)) (str : List UInt8) : List (List UInt8) := lines ++ [str]

/-- The MBR: the lines that it prints, and the memory that it leaves to the next stage. The sectors
    of the disk address packet are those of the bootloader. -/
def mbr (bios : Bios) (disk : ℕ → Memory) (m : Memory) : List (List UInt8) × Option Memory :=
  let lines := biosPuts [] (ascii "boot hi")
  let error := (biosPuts lines (ascii "boot err"), none)
  if bios.readFails then error
  else
    let m := storeSectors m 0x10000 disk 2048 128
    if bios.mapFails then error
    else
      let m := biosMemMap m bios.regions
      if bios.a20Fails then error
      else (lines, some m)

/-! ## The second stage -/

/-- What the processor answers: whether the bit 21 of the flags can be flipped, the highest
    extended function, and the features in `edx`. -/
structure Cpu where
  idFlips : Bool
  maxExtended : ℕ
  features : ℕ

/-- The code of the error, if there is one. -/
def checkCpuid (cpu : Cpu) : Option UInt8 := if cpu.idFlips then none else some 0x31

/-- The processor has to have the extended function, and long mode. -/
def checkLongMode (cpu : Cpu) : Option UInt8 :=
  if cpu.maxExtended < 0x80000001 then some 0x32
  else if cpu.features &&& (1 <<< 29) = 0 then some 0x32
  else none

/-- `error`, with the code in `al`. -/
def startError (m : Memory) (al : UInt8) : Memory :=
  let m := m.write 4 0xb8000 0x4f524f45
  let m := m.write 4 0xb8004 0x4f3a4f52
  let m := m.write 4 0xb8008 0x4f204f20
  m.set 0xb800a al

/-- `_start`: the memory that it halts with, or the machine that it calls `cboot_main` on. -/
def start (cpu : Cpu) (m : Memory) : Memory ⊕ PagingState :=
  match checkCpuid cpu with
  | some al => .inl (startError m al)
  | none =>
    match checkLongMode cpu with
    | some al => .inl (startError m al)
    | none => .inr (.boot m)

/-- The processor has long mode, and tells so. -/
def Cpu.HasLongMode (cpu : Cpu) : Prop :=
  cpu.idFlips = true ∧ 0x80000001 ≤ cpu.maxExtended ∧ cpu.features.testBit 29 = true

section start

variable {cpu : Cpu} {m : Memory}

theorem checks_eq_none_iff :
    checkCpuid cpu = none ∧ checkLongMode cpu = none ↔ cpu.HasLongMode := by
  have hbit : cpu.features &&& (1 <<< 29) = 0 ↔ cpu.features.testBit 29 = false := by
    rw [Nat.one_shiftLeft, Nat.and_two_pow, Nat.mul_eq_zero]
    cases cpu.features.testBit 29 <;> simp
  rw [checkCpuid, checkLongMode, Cpu.HasLongMode]
  split_ifs with h₁ h₂ h₃
  · exact iff_of_false (by simp) fun h => absurd h.2.1 (Nat.not_le.2 h₂)
  · exact iff_of_false (by simp) fun h => by simp [hbit.1 h₃] at h
  · exact iff_of_true ⟨rfl, rfl⟩ ⟨h₁, Nat.not_lt.1 h₂, by
      simpa using hbit.not.1 h₃⟩
  all_goals exact iff_of_false (by simp) fun h => h₁ h.1

/-- The message: the characters `ERR: ` and the code, white on red. -/
theorem screenCell_startError (m : Memory) (al : UInt8) {i : ℕ} {c : UInt8}
    (hc : (ascii "ERR: " ++ [al])[i]? = some c) : screenCell (startError m al) i = ⟨c, 0x4F⟩ := by
  have hlt : i < 6 := (List.getElem?_eq_some_iff.1 hc).1
  have hcases : i = 0 ∨ i = 1 ∨ i = 2 ∨ i = 3 ∨ i = 4 ∨ i = 5 := by omega
  rcases hcases with rfl | rfl | rfl | rfl | rfl | rfl
  all_goals
    obtain rfl := Option.some.inj hc
    simp [screenCell, startError, Memory.set, Memory.write]
  all_goals rfl

/-- On a processor with long mode, the tables are set up. On another one, there is a message. -/
theorem start_spec (cpu : Cpu) (m : Memory) :
    cpu.HasLongMode ∧ start cpu m = .inr (.boot m) ∨
      ¬cpu.HasLongMode ∧ ∃ m' al, start cpu m = .inl m' ∧
        ∀ i c, (ascii "ERR: " ++ [al])[i]? = some c → screenCell m' i = ⟨c, 0x4F⟩ := by
  have hnone : checkCpuid cpu = none ∧ checkLongMode cpu = none ↔ cpu.HasLongMode :=
    checks_eq_none_iff
  cases h₁ : checkCpuid cpu with
  | some al =>
    refine .inr ⟨fun h => absurd (h₁.symm.trans (hnone.2 h).1) (by simp), _, al, ?_,
      fun i c => screenCell_startError m al⟩
    rw [start, h₁]
  | none =>
    cases h₂ : checkLongMode cpu with
    | some al =>
      refine .inr ⟨fun h => absurd (h₂.symm.trans (hnone.2 h).2) (by simp), _, al, ?_,
        fun i c => screenCell_startError m al⟩
      rw [start, h₁, h₂]
    | none =>
      refine .inl ⟨hnone.1 ⟨h₁, h₂⟩, ?_⟩
      rw [start, h₁, h₂]

end start

/-! ## Up to `cboot_main` -/

section ready

variable {m : Memory} {disk : ℕ → Memory} {name path base : ℕ} {rs : List BiosMemoryRegion}

/-- The string is in the bootloader on the disk, which is loaded to 0x10000. -/
structure StringOnDisk (disk : ℕ → Memory) (p : ℕ) (str : List UInt8) : Prop where
  le : 0x10000 ≤ p
  lt : p + str.length < 0x20000
  str : CString (bytesFrom disk 2048) (p - 0x10000) str

/-- The map of the BIOS: it has an end, as the memory behind it is zero, and the first region that
    fits is in the map of physical memory. -/
structure MapReady (m : Memory) (rs : List BiosMemoryRegion) (base : ℕ) : Prop where
  types : ∀ r ∈ rs, r.type ≠ 0
  length_le : rs.length ≤ 116
  zero : m.read 4 (0x500 + 24 * rs.length + 16) = 0
  total_le : (freeMemory rs).toNat ≤ 511 * 2 ^ 30
  space : ∃ r, firstFit rs 268435456 = some r ∧ r.baseAddress.toNat = base
  aligned : base % 0x1000 = 0
  mapped : base + 268435456 ≤ numGigs (freeMemory rs).toNat * 2 ^ 30

/-- A string only depends on its bytes, wherever they are. -/
theorem CString.move {m' : Memory} {p q : ℕ} {str : List UInt8} (h : CString m p str)
    (heq : ∀ i ≤ str.length, m' (q + i) = m (p + i)) : CString m' q str := by
  induction str generalizing p q with
  | nil =>
    have h₀ := heq 0 le_rfl
    exact h₀.trans h
  | cons c str ih =>
    obtain ⟨hc, hne, hrest⟩ := h
    refine ⟨(heq 0 (Nat.zero_le _)).trans hc, hne, ih hrest fun i hi => ?_⟩
    have := heq (i + 1) (Nat.succ_le_succ hi)
    rwa [Nat.add_comm i, ← Nat.add_assoc, ← Nat.add_assoc] at this

/-- The memory that the first stage leaves. -/
theorem mbr_of_ok {bios : Bios} (h : bios.readFails = false ∧ bios.mapFails = false ∧
    bios.a20Fails = false) (disk : ℕ → Memory) (m : Memory) :
    mbr bios disk m = ([ascii "boot hi"],
      some (biosMemMap (storeSectors m 0x10000 disk 2048 128) bios.regions)) := by
  rw [mbr, h.1, h.2.1, h.2.2]
  rfl

/-- A string of the bootloader is in memory. -/
theorem StringOnDisk.cString {p : ℕ} {str : List UInt8} (h : StringOnDisk disk p str) (m : Memory)
    (hlen : rs.length ≤ 116) :
    CString (biosMemMap (storeSectors m 0x10000 disk 2048 128) rs) p str := by
  obtain ⟨hle, hlt, hstr⟩ := h
  refine hstr.move fun i hi => ?_
  have hp : p + i = 0x10000 + (p - 0x10000 + i) := by omega
  rw [biosMemMap, biosMemMapLoop_of_not_mem (by omega) (by omega), hp,
    storeSectors_of_lt (by omega), bytesFrom]

/-- The regions are in memory, in front of the place of the tables. -/
theorem MapReady.regionsAt (h : MapReady m rs base) (disk : ℕ → Memory) :
    RegionsAt (biosMemMap (storeSectors m 0x10000 disk 2048 128) rs) biosMemoryMapLocation rs := by
  have hlen := h.length_le
  rw [regionsAt_iff, biosMemoryMapLocation]
  refine ⟨fun k r hr => ⟨readRegion_biosMemMapLoop (by omega) hr,
    h.types r (List.mem_of_getElem? hr)⟩, congrArg UInt32.ofNat ?_⟩
  refine (Memory.read_congr fun i hi => ?_).trans h.zero
  rw [biosMemMap, biosMemMapLoop_of_not_mem (by omega) (by omega),
    storeSectors_of_not_mem (by omega)]

/-- Memory is ready for `cboot_main`. -/
theorem memoryReady_mbr (hname : StringOnDisk disk name rootPartitionName)
    (hpath : StringOnDisk disk path kernelPath) (hmap : MapReady m rs base) :
    MemoryReady (biosMemMap (storeSectors m 0x10000 disk 2048 128) rs) name path rs base where
  regions := hmap.regionsAt disk
  length_le := hmap.length_le
  name := ⟨hname.cString m hmap.length_le, by have := hname.le; omega⟩
  path := ⟨hpath.cString m hmap.length_le, by have := hpath.le; omega, hpath.lt⟩
  total_le := hmap.total_le
  space := hmap.space
  aligned := hmap.aligned
  mapped := hmap.mapped

end ready

/-! ## Up to the greeting -/

section power

variable {d : AtaDevice} {m : Memory} {bios : Bios} {cpu : Cpu} {buffer name path base n : ℕ}
  {gpte : GPTEntry} {es : List Entry} {e : Entry}

/-- If the BIOS does what it is asked for on a processor with long mode, and the strings of the
    bootloader, the partition table and the file of the kernel are on the disk, then the functions
    of the bootloader and of the kernel, run one after the other, get the greeting to the screen,
    whatever was in memory but for the end of the map. -/
theorem power_on_greets (hbios : bios.readFails = false ∧ bios.mapFails = false ∧
      bios.a20Fails = false) (hcpu : cpu.HasLongMode) (hl : d.Live)
    (hname : StringOnDisk d.disk name rootPartitionName)
    (hpath : StringOnDisk d.disk path kernelPath) (hmap : MapReady m bios.regions base)
    (hp : PartitionReady d.disk n gpte) (ha : ArchiveReady d.disk gpte es e)
    (hk : KernelReady (kernelFile d.disk gpte es) e.size) (stack : Memory)
    (hbuffer : buffer + 4096 ≤ 2 ^ 21) :
    ∃ m₁ st d' log k m₂, mbr bios d.disk m = ([ascii "boot hi"], some m₁) ∧
      start cpu m₁ = .inr st ∧
      (cbootMain ports d st stack buffer name path).Returns (d', log, some k) ∧
      kmain k.st.mem = .ok m₂ ∧
      (∀ j c, helloWorld[j]? = some c → screenCell m₂ j = ⟨c, 0x1F⟩) ∧
      ∀ v, 0xFFFF900000000000 ≤ v → v < 2 ^ 64 →
        virtualByte m₂ v = firstPageByte (kernelFile d.disk gpte es) v := by
  have hm := memoryReady_mbr hname hpath hmap
  obtain ⟨d', log, k, m₂, hreturns, hkmain, hgreeting, -, hwindow⟩ :=
    boot_greets hl hm hp ha hk stack hbuffer
  obtain ⟨-, hstart⟩ | ⟨hnot, -⟩ := start_spec cpu
    (biosMemMap (storeSectors m 0x10000 d.disk 2048 128) bios.regions)
  · exact ⟨_, _, d', log, k, m₂, mbr_of_ok hbios _ _, hstart, hreturns, hkmain, hgreeting, hwindow⟩
  · exact absurd hcpu hnot

/-- The strings of the bootloader on the disk. -/
theorem stringOnDisk_kernelDisk : StringOnDisk kernelDisk 0x10040 rootPartitionName ∧
    StringOnDisk kernelDisk 0x10000 kernelPath := by
  refine ⟨⟨by decide, by decide, cString_of_getD (by simp [rootPartitionName]) ?_⟩, by decide,
    by decide, cString_of_getD (by simp [kernelPath]) ?_⟩
  · decide +kernel
  · decide +kernel

theorem mapReady_zeros : MapReady (fun _ => 0) [⟨0x100000, 0x40000000, 1, 0⟩] 0x100000 :=
  ⟨by decide, by decide, by decide, by decide, ⟨_, rfl, rfl⟩, rfl, by decide⟩

theorem power_on_greets_one :
    ∃ m₁ st d' log k m₂, mbr ⟨false, false, [⟨0x100000, 0x40000000, 1, 0⟩], false⟩ kernelDisk
        (fun _ => 0) = ([ascii "boot hi"], some m₁) ∧
      start ⟨true, 0x80000008, 0x20000000⟩ m₁ = .inr st ∧
      (cbootMain ports (driveOf kernelDisk) st (fun _ => 0) 0x6E000 0x10040 0x10000).Returns
        (d', log, some k) ∧
      kmain k.st.mem = .ok m₂ ∧
      (∀ j c, helloWorld[j]? = some c → screenCell m₂ j = ⟨c, 0x1F⟩) ∧
      ∀ v, 0xFFFF900000000000 ≤ v → v < 2 ^ 64 → virtualByte m₂ v =
        firstPageByte (kernelFile kernelDisk kernelPartition [kernelEntry]) v := by
  have hk := kernelReady_oneKernel
  rw [← kernelFile_kernelDisk] at hk
  exact power_on_greets ⟨rfl, rfl, rfl⟩ ⟨rfl, by decide, by decide⟩ (live_driveOf kernelDisk)
    stringOnDisk_kernelDisk.1 stringOnDisk_kernelDisk.2 mapReady_zeros partitionReady_kernelDisk
    archiveReady_kernelDisk hk _ (by decide)

end power

end Cboot
