import Cboot.Archive.AnyDisk
import Cboot.Bios.KernelSpace
import Cboot.Disk.Slots
import Cboot.Disk.Virtual
import Cboot.Kernel.Virtual
import Cboot.Paging.SelfTest

/-!
# The boot sequence

`cboot_main` of `main.c`, with a record of its steps (`BootEvent`), and whether it fails
safely (`FailsSafely`): it only enters a kernel if every step before has succeeded, and
without memory for one it halts at once. Where memory is not mapped, it ends with a fault.

* `loadKernel_null`: without memory, the memory from the address 0 on is cleared first;
* `loadKernel_spec`: with memory that is mapped, the kernel is entered if a file with the
  signature of ELF has been loaded, whatever partition it came from, and can be mapped;
* `bootFailsSafely_iff`: so the sequence fails safely if and only if there is memory, and
  what is found without a partition, in the sectors from 0 on, is not such a file.
-/

namespace Cboot

open AtaDevice Fueled

/-! ## The sequence -/

/-- What `cboot_main` does, but for its stack and the output devices: the results of its
    steps, and the memory that it clears. -/
inductive BootEvent
  | partitionSearched (gpte : GPTEntry) (inspected : List ℕ)
  | spaceAllocated (kaddr : ℕ)
  | memoryCleared (dst size : ℕ)
  | fileLoaded (gpte : GPTEntry) (bytesLoaded : UInt64)
  | signatureCompared (neq : ℕ)
  | kernelEntered (entryPoint : ℕ)
  | halted
  -- the handler reports the fault, and halts
  | faulted (v : ℕ)

/-- What is passed to the kernel. -/
structure BootInfo where
  biosMemoryMapAddress : ℕ
  kernelPaddr : ℕ
  kernelSize : ℕ
  deriving DecidableEq, Repr

/-- The machine that a kernel is entered on, the address of its code, and what is passed to it. -/
structure KernelEntry where
  st : PagingState
  entryPoint : ℕ
  bootinfo : BootInfo

/-- `"\x7F\x45\x4c\x46"` -/
def elfSignature : List UInt8 := [0x7F, 0x45, 0x4C, 0x46]

/-- `"/sys/kernel.elf"` -/
def kernelPath : List UInt8 :=
  [0x2F, 0x73, 0x79, 0x73, 0x2F, 0x6B, 0x65, 0x72, 0x6E, 0x65, 0x6C, 0x2E, 0x65, 0x6C, 0x66]

/-- What is passed to the kernel, and what it is entered on, when the loader has returned. -/
def kernelEntryOf (exe : ℕ) (mapped : PagingState × ℕ × ℕ) : KernelEntry where
  st := mapped.1
  entryPoint := mapped.2.1
  bootinfo := ⟨biosMemoryMapLocation, exe &&& 0x00001FFFFFFFFFFF, mapped.2.2⟩

section entry

variable (exe : ℕ) (mapped : PagingState × ℕ × ℕ)

@[simp] theorem kernelEntryOf_st : (kernelEntryOf exe mapped).st = mapped.1 := rfl

@[simp] theorem kernelEntryOf_entryPoint :
    (kernelEntryOf exe mapped).entryPoint = mapped.2.1 := rfl

@[simp] theorem kernelEntryOf_bootinfo : (kernelEntryOf exe mapped).bootinfo =
    ⟨biosMemoryMapLocation, exe &&& 0x00001FFFFFFFFFFF, mapped.2.2⟩ := rfl

end entry

section sequence

variable {δ : Type} (io : Ports δ)

/-- From the loader on, which has returned or taken a fault. -/
def afterMapping (d : δ) (compared : List BootEvent) (exe : ℕ) :
    Except ℕ (PagingState × ℕ × ℕ) → δ × List BootEvent × Option KernelEntry
  | .error v => (d, compared ++ [.faulted v], none)
  | .ok mapped => (d, compared ++ [.kernelEntered mapped.2.1], some (kernelEntryOf exe mapped))

/-- From the loading of the file on. The memory from `exe` on is mapped. -/
def enterKernel (d : δ) (st : PagingState) (gpte : GPTEntry) (path exe : ℕ) :
    Fueled (δ × List BootEvent × Option KernelEntry) := do
  let kaddr := (exe + 167772160) % 2 ^ 64
  let ((d, m), bytesLoaded) ← ustarLoadFile io d st.mem gpte path (kaddr % 2 ^ 47)
  let loaded := [.fileLoaded gpte bytesLoaded]
  if bytesLoaded = 0 then pure (d, loaded ++ [.halted], none)
  else
    let neq := memcmp (physicalView m) kaddr (literal elfSignature) 0 4
    let compared := loaded ++ [.signatureCompared neq]
    if neq ≠ 0 then pure (d, compared ++ [.halted], none)
    else pure (afterMapping d compared exe (Virtual.mapKernel { st with mem := m } kaddr exe 0))

/-- From the test of `kaddr` on, which comes after the memory there has been cleared, or clearing
    it has faulted. -/
def afterClearing (d : δ) (st : PagingState) (gpte : GPTEntry) (path kaddr : ℕ) :
    Except ℕ Memory → Fueled (δ × List BootEvent × Option KernelEntry)
  | .error v => pure (d, [.memoryCleared kaddr (v - kaddr), .faulted v], none)
  | .ok mem =>
    let cleared := .memoryCleared kaddr 268435456
    if kaddr = 0 then pure (d, [cleared, .halted], none)
    else do
      let (d, events, entered) ← enterKernel io d { st with mem := mem } gpte path kaddr
      pure (d, cleared :: events, entered)

/-- From the memory for the kernel on. -/
def loadKernel (d : δ) (st : PagingState) (gpte : GPTEntry) (path kaddr : ℕ) :
    Fueled (δ × List BootEvent × Option KernelEntry) :=
  afterClearing io d st gpte path kaddr (Virtual.memset st.mem kaddr 0 268435456)

/-- `cboot_main`, with the record of its steps and the kernel that it enters. The buffer of the
    search is at `buffer`, in low memory, with `stack` from its beginning on, and the names of the
    partition and of the file are at `name` and `path`. -/
def cbootMain (d : δ) (st : PagingState) (stack : Memory) (buffer name path : ℕ) :
    Fueled (δ × List BootEvent × Option KernelEntry) := do
  let (totalMem, _) ← scanBiosMemmap st.mem
  let (d, found) ← Virtual.findPartitionByName io d stack st.mem buffer name
  match found with
  | .error v => pure (d, [.faulted v], none)
  | .ok (gpte, inspected) =>
    let searched := .partitionSearched gpte inspected
    let st := setupPhysicalMap st totalMem.toNat
    let tested ← testPhysicalMap st.mem []
    match tested with
    | .faulted v => pure (d, [searched, .faulted v], none)
    | .halted _ => pure (d, [searched, .halted], none)
    | .passed _ =>
      -- whether the file is found is only printed
      let (d, _) ← ustarGetNumSectors io d st.mem gpte path
      let kaddr ← allocateSpaceForKernel st.mem 268435456
      let (d, events, entered) ← loadKernel io d st gpte path kaddr
      pure (d, searched :: .spaceAllocated kaddr :: events, entered)

end sequence

/-! ## Failing safely -/

/-- An entry at one of the addresses is in use and has the name. -/
def HasNamed (buf m : Memory) (name : ℕ) (as : List ℕ) : Prop :=
  ∃ a ∈ as, ¬NullEntryAt buf a ∧ nameMatches buf m name a = true

/-- A kernel is only entered if the partition has been found in the buffer, there was memory, and
    a file with the signature has been loaded from that partition. Without memory, it halts, and
    nothing is cleared before. -/
structure FailsSafely (buf m : Memory) (name : ℕ) (log : List BootEvent) : Prop where
  entered : ∀ entryPoint, .kernelEntered entryPoint ∈ log → ∃ gpte inspected kaddr bytesLoaded,
    .partitionSearched gpte inspected ∈ log ∧ HasNamed buf m name inspected ∧
      .spaceAllocated kaddr ∈ log ∧ kaddr ≠ 0 ∧ .fileLoaded gpte bytesLoaded ∈ log ∧
      bytesLoaded ≠ 0 ∧ .signatureCompared 0 ∈ log
  halts : ∀ before after, log = before ++ .spaceAllocated 0 :: after →
    .halted ∈ after ∧ ∀ dst size, .memoryCleared dst size ∈ after → size = 0

/-- Every run of the sequence that ends fails safely. -/
def BootFailsSafely (d : AtaDevice) (st : PagingState) (stack : Memory) (buffer name path : ℕ) :
    Prop :=
  ∀ d' log entered, (cbootMain ports d st stack buffer name path).Returns (d', log, entered) →
    FailsSafely (partitionBuffer stack d.disk) st.mem name log

/-- What is in memory when the sequence begins: a map of memory, of which something is left
    when the memory for the kernel is looked for, and the path of the kernel in the program. -/
structure BootLayout (m : Memory) (path : ℕ) (scanned rs : List BiosMemoryRegion) : Prop where
  scan : RegionsAt (PagingState.boot m).mem biosMemoryMapLocation scanned
  allocate : RegionsAt (setupPhysicalMap (.boot m) (freeMemory scanned).toNat).mem
    biosMemoryMapLocation rs
  regions_low : biosMemoryMapLocation + 24 * (scanned.length + 1) ≤ 2 ^ 21 ∧
    biosMemoryMapLocation + 24 * (rs.length + 1) ≤ 2 ^ 21
  kernel : CString (setupPhysicalMap (.boot m) (freeMemory scanned).toNat).mem path kernelPath
  low : path + kernelPath.length < 0x100000
  total_le : (freeMemory scanned).toNat ≤ 2 ^ 46
  physical : ∀ r, firstFit rs 268435456 = some r → r.baseAddress.toNat + 268435456 < 2 ^ 47

/-- The search for the partition ends with the entry `gpte`, and does not fault. -/
def SearchEnds (disk : ℕ → Memory) (stack m : Memory) (buffer name : ℕ) (gpte : GPTEntry)
    (inspected : List ℕ) : Prop :=
  (loop (Virtual.entryRound (partitionBuffer stack disk) m buffer name (entrySize disk))
    (0, 0, nullEntry, [])).Returns (.ok (gpte, inspected))

/-- The map of memory is not too large for the map of physical memory. -/
def Mappable (scanned : List BiosMemoryRegion) : Prop :=
  0 < (freeMemory scanned).toNat ∧ (freeMemory scanned).toNat ≤ 511 * 2 ^ 30

instance (scanned : List BiosMemoryRegion) : Decidable (Mappable scanned) :=
  inferInstanceAs (Decidable (_ ∧ _))

/-- What the sequence comes to after the searches: they have found the entry `gpte`, and nothing has
    faulted. -/
structure SearchesEnd (disk : ℕ → Memory) (stack m : Memory) (buffer name : ℕ)
    (scanned : List BiosMemoryRegion) (gpte : GPTEntry) (inspected : List ℕ) : Prop where
  search : SearchEnds disk stack (PagingState.boot m).mem buffer name gpte inspected
  mappable : Mappable scanned
  stop : ∃ r, StopsAt disk gpte numSectorsU64 kernelPath 0 r

/-- The archive of the partition has a file of the path of the kernel, of which there is
    something to load, and which begins with the signature. -/
def HasElf (disk : ℕ → Memory) (gpte : GPTEntry) : Prop :=
  ∃ seeker, StopsAt disk gpte numSectorsU32 kernelPath 0 (some seeker) ∧
    loadedBytes (disk (sectorAt gpte seeker)) ≠ 0 ∧
    loadedSectors (disk (sectorAt gpte seeker)) ≠ 0 ∧
    ∀ i < 4, disk (sectorAt gpte (seeker + 1)) i = literal elfSignature i

/-- The machine with the file of the header `seeker` loaded. -/
def kernelLoaded (disk : ℕ → Memory) (st : PagingState) (gpte : GPTEntry) (base : ℕ)
    (seeker : UInt64) : PagingState :=
  { st with
    mem := storeSectors (st.mem.fill base 268435456 0) (base + 167772160) disk
      (sectorAt gpte (seeker + 1)) (loadedSectors (disk (sectorAt gpte seeker))) }

/-- The loader, `map_kernel`, gets through the file without a fault. -/
def MapsKernel (st : PagingState) (base : ℕ) : Prop :=
  ∃ r, Virtual.mapKernel st (0xFFFF800000000000 + (base + 167772160))
    (0xFFFF800000000000 + base) 0 = .ok r

/-- What is found for the kernel can be entered: a file of ELF, the memory for which is in the
    first `mapped` bytes, and which the loader gets through. -/
def CanEnter (disk : ℕ → Memory) (st : PagingState) (mapped : ℕ) (gpte : GPTEntry) (base : ℕ) :
    Prop :=
  base + 268435456 ≤ mapped ∧ HasElf disk gpte ∧
    ∀ seeker, StopsAt disk gpte numSectorsU32 kernelPath 0 (some seeker) →
      MapsKernel (kernelLoaded disk st gpte base seeker) base

/-! ## The partition -/

section search

variable {buf m : Memory} {name gpteSize : ℕ}

theorem hasNamed_concat {as : List ℕ} {a : ℕ} : HasNamed buf m name (as ++ [a]) ↔
    HasNamed buf m name as ∨ ¬NullEntryAt buf a ∧ nameMatches buf m name a = true := by
  simp only [HasNamed, List.mem_append, List.mem_singleton, or_and_right, exists_or,
    exists_eq_left]

/-- What is known between two rounds: the entry found so far is in use if and only if `found`
    is set, that is if one of those inspected has the name. -/
structure FoundSoFar (buf m : Memory) (name : ℕ) (s : ℕ × ℕ × GPTEntry × List ℕ) : Prop where
  used : s.2.2.1.Used ↔ s.2.1 ≠ 0
  named : s.2.1 ≠ 0 ↔ HasNamed buf m name s.2.2.2

theorem FoundSoFar.step {s s' : ℕ × ℕ × GPTEntry × List ℕ} (h : FoundSoFar buf m name s)
    (hs : (entryRound buf m name gpteSize s).Returns (.inl s')) : FoundSoFar buf m name s' := by
  obtain ⟨gptePtr, found, gpteFound, inspected⟩ := s
  obtain ⟨hused, hnamed⟩ := h
  by_cases hnull : NullEntryAt buf gptePtr
  · exact absurd (hs.unique (entryRound_null hnull)) (by simp)
  · obtain rfl := Sum.inl.inj (hs.unique (entryRound_used hnull))
    by_cases hsel : nameMatches buf m name gptePtr = true ∧ found = 0
    · -- The entry of the round is the one found.
      rw [if_pos hsel, if_pos hsel]
      exact ⟨iff_of_true (not_not.1 (nullEntryAt_iff.not.1 hnull)) one_ne_zero,
        iff_of_true one_ne_zero (hasNamed_concat.2 (.inr ⟨hnull, hsel.1⟩))⟩
    · rw [if_neg hsel, if_neg hsel]
      refine ⟨hused, hnamed.trans (hasNamed_concat.trans (or_iff_left_of_imp ?_)).symm⟩
      exact fun hmatch => hnamed.1 fun hfound => hsel ⟨hmatch.2, hfound⟩

/-- The search returns an entry in use if and only if one that it has inspected has the name. -/
theorem used_iff_hasNamed {r : GPTEntry × List ℕ}
    (h : (loop (entryRound buf m name gpteSize) (0, 0, nullEntry, [])).Returns r) :
    r.1.Used ↔ HasNamed buf m name r.2 := by
  have hstart : FoundSoFar buf m name (0, 0, nullEntry, []) :=
    ⟨iff_of_false (fun ⟨i, hi⟩ => hi (nullEntry_partitionTypeGuid i)) fun h => h rfl,
      iff_of_false (fun h => h rfl) fun ⟨_, ha, _⟩ => absurd ha List.not_mem_nil⟩
  obtain ⟨⟨gptePtr, found, gpteFound, inspected⟩, ⟨hused, hnamed⟩, hlast⟩ :=
    h.loop_inv hstart fun s s' hs hr => hs.step hr
  by_cases hnull : NullEntryAt buf gptePtr
  · obtain rfl := Sum.inr.inj (hlast.unique (entryRound_null hnull))
    -- The last entry is the one that ends the loop.
    exact hused.trans (hnamed.trans (hasNamed_concat.trans
      (or_iff_left fun hmatch => hmatch.1 hnull)).symm)
  · exact absurd (hlast.unique (entryRound_used hnull)) (by simp)

end search

/-! ## From the memory for the kernel on -/

/-- The file at `p` begins with the signature. -/
def HasElfSignature (m : Memory) (p : ℕ) : Prop := ∀ i < 4, m (p + i) = literal elfSignature i

/-- No kernel is entered, and no memory is looked for. -/
def NotEntered (events : List BootEvent) : Prop :=
  (∀ entryPoint, .kernelEntered entryPoint ∉ events) ∧ ∀ kaddr, .spaceAllocated kaddr ∉ events

section load

variable {δ : Type} {io : Ports δ} {d : δ} {st : PagingState} {gpte : GPTEntry} {path base : ℕ}

/-- Without memory for the kernel, memory is cleared from the address 0 on: if that does not end
    with a fault, 256 MB of it. -/
theorem loadKernel_null (io : Ports δ) (d : δ) (st : PagingState) (gpte : GPTEntry) (path : ℕ) :
    ∃ events, (loadKernel io d st gpte path 0).Returns (d, events, none) ∧
      (∀ entryPoint, .kernelEntered entryPoint ∉ events) ∧
      ¬(.halted ∈ events ∧ ∀ dst size, .memoryCleared dst size ∈ events → size = 0) := by
  rw [loadKernel]
  cases Virtual.memset st.mem 0 0 268435456 with
  | error v => exact ⟨_, returns_pure_iff.2 rfl, by simp, fun h => absurd h.1 (by simp)⟩
  | ok mem =>
    rw [afterClearing]
    simp only
    rw [if_pos trivial]
    exact ⟨_, returns_pure_iff.2 rfl, by simp,
      fun h => absurd (h.2 0 268435456 (by simp)) (by decide)⟩

/-- With memory that is not mapped, clearing it faults. -/
theorem loadKernel_unmapped (io : Ports δ) (d : δ) (gpte : GPTEntry) (path : ℕ) {kaddr : ℕ}
    (hset : ∃ v, Virtual.memset st.mem kaddr 0 268435456 = .error v) :
    ∃ events, (loadKernel io d st gpte path kaddr).Returns (d, events, none) ∧
      NotEntered events := by
  obtain ⟨v, hset⟩ := hset
  rw [loadKernel, hset]
  exact ⟨_, returns_pure_iff.2 rfl, by simp, by simp⟩

/-- With memory that is mapped, the file is loaded after it has been cleared. -/
theorem loadKernel_mapped {kaddr : ℕ} {mem : Memory}
    (hset : Virtual.memset st.mem kaddr 0 268435456 = .ok mem) (hne : kaddr ≠ 0)
    {a : δ × List BootEvent × Option KernelEntry} :
    (loadKernel io d st gpte path kaddr).Returns a ↔ ∃ events,
      (enterKernel io d { st with mem := mem } gpte path kaddr).Returns (a.1, events, a.2.2) ∧
        a.2.1 = .memoryCleared kaddr 268435456 :: events := by
  rw [loadKernel, hset, afterClearing, if_neg hne, returns_bind_iff]
  constructor
  · rintro ⟨⟨d', events, entered⟩, h, ha⟩
    obtain rfl := returns_pure_iff.1 ha
    exact ⟨events, h, rfl⟩
  · rintro ⟨events, h, ha⟩
    exact ⟨(a.1, events, a.2.2), h, returns_pure_iff.2 (Prod.ext rfl (Prod.ext ha rfl))⟩

/-- A pointer to the map of physical memory. -/
theorem pointer_mod {p : ℕ} (hp : p < 2 ^ 47) : (0xFFFF800000000000 + p) % 2 ^ 47 = p := by omega

/-- The comparison with the signature, through the map of physical memory. -/
theorem memcmp_elfSignature_iff {m : Memory} {p : ℕ} (hp : p + 4 ≤ 2 ^ 47) :
    memcmp (physicalView m) (0xFFFF800000000000 + p) (literal elfSignature) 0 4 = 0 ↔
      HasElfSignature m p := by
  rw [memcmp_eq_zero_iff]
  refine forall₂_congr fun i hi => ?_
  rw [physicalView, Nat.add_assoc, pointer_mod (by omega), Nat.zero_add]

/-- After the file has been loaded, its size and its first bytes decide, and the loader. -/
theorem enterKernel_cases (st : PagingState) (hbase : base + 268435456 < 2 ^ 47) {d' : δ}
    {m : Memory} {bytesLoaded : UInt64} (h : (ustarLoadFile io d st.mem gpte path
      (base + 167772160)).Returns ((d', m), bytesLoaded)) :
    (∃ events, (enterKernel io d st gpte path (0xFFFF800000000000 + base)).Returns
          (d', events, none) ∧ NotEntered events ∧
        (bytesLoaded = 0 ∨ ¬HasElfSignature m (base + 167772160) ∨
          ¬MapsKernel { st with mem := m } base)) ∨
      bytesLoaded ≠ 0 ∧ HasElfSignature m (base + 167772160) ∧ ∃ mapped,
        Virtual.mapKernel { st with mem := m } (0xFFFF800000000000 + (base + 167772160))
          (0xFFFF800000000000 + base) 0 = .ok mapped ∧
        (enterKernel io d st gpte path (0xFFFF800000000000 + base)).Returns
          (d', [.fileLoaded gpte bytesLoaded, .signatureCompared 0, .kernelEntered mapped.2.1],
            some (kernelEntryOf (0xFFFF800000000000 + base) mapped)) := by
  have hkaddr : (0xFFFF800000000000 + base + 167772160) % 2 ^ 64 =
      0xFFFF800000000000 + (base + 167772160) := by
    rw [Nat.mod_eq_of_lt (by omega), Nat.add_assoc]
  have hfile : (0xFFFF800000000000 + (base + 167772160)) % 2 ^ 47 = base + 167772160 :=
    pointer_mod (by omega)
  have hsig := memcmp_elfSignature_iff (m := m) (p := base + 167772160) (by omega)
  simp only [enterKernel, hkaddr, hfile, h.bind_iff]
  by_cases hbytes : bytesLoaded = 0
  · rw [if_pos hbytes]
    exact .inl ⟨_, returns_pure_iff.2 rfl, ⟨by simp, by simp⟩, .inl hbytes⟩
  rw [if_neg hbytes]
  by_cases heq : HasElfSignature m (base + 167772160)
  · rw [hsig.2 heq, if_neg (not_not_intro rfl)]
    cases hmap : Virtual.mapKernel { st with mem := m } (0xFFFF800000000000 + (base + 167772160))
      (0xFFFF800000000000 + base) 0 with
    | error v =>
      refine .inl ⟨_, returns_pure_iff.2 rfl, ⟨by simp, by simp⟩, .inr (.inr ?_)⟩
      rintro ⟨r, hr⟩
      exact absurd (hmap.symm.trans hr) (by simp)
    | ok mapped => exact .inr ⟨hbytes, heq, mapped, rfl, returns_pure_iff.2 rfl⟩
  · rw [if_pos (hsig.not.2 heq)]
    exact .inl ⟨_, returns_pure_iff.2 rfl, ⟨by simp, by simp⟩, .inr (.inl heq)⟩

end load

section load

variable {d : AtaDevice} {st : PagingState} {gpte : GPTEntry} {path base : ℕ}

/-- What has to be in front of the memory for the kernel, so that clearing it keeps it. -/
theorem cString_cleared {m : Memory} (hp : CString m path kernelPath)
    (hlow : path + kernelPath.length < 0x100000) (hbase : 0x100000 ≤ base) :
    CString (m.fill base 268435456 0) path kernelPath :=
  hp.congr fun x _ hx => Memory.fill_of_not_mem (.inl (by omega))

/-- The first bytes of a file of which some sectors have been loaded. -/
theorem hasElfSignature_storeSectors {m : Memory} {p lba n : ℕ} {disk : ℕ → Memory} (hn : n ≠ 0) :
    HasElfSignature (storeSectors m p disk lba n) p ↔
      ∀ i < 4, disk lba i = literal elfSignature i := by
  refine forall₂_congr fun i hi => ?_
  rw [storeSectors_of_lt (by omega), Nat.div_eq_of_lt (by omega), Nat.mod_eq_of_lt (by omega),
    Nat.add_zero]

/-- The cleared memory has no signature. -/
theorem not_hasElfSignature_fill {m : Memory} (h : base + 167772160 = p) :
    ¬HasElfSignature (m.fill base 268435456 0) p := by
  intro hsig
  have hbyte := hsig 0 (by decide)
  rw [Memory.fill_of_mem (by omega) (by omega)] at hbyte
  exact absurd hbyte (by decide)

/-- What is loaded has the signature if and only if the file in the archive has: if no sector
    of it is loaded, what is found is the cleared memory. -/
theorem hasElf_iff (st : PagingState) (base : ℕ) {seeker : UInt64} {disk : ℕ → Memory}
    (hr : StopsAt disk gpte numSectorsU32 kernelPath 0 (some seeker)) :
    HasElf disk gpte ↔ loadedBytes (disk (sectorAt gpte seeker)) ≠ 0 ∧
      HasElfSignature (kernelLoaded disk st gpte base seeker).mem (base + 167772160) := by
  rw [kernelLoaded]
  constructor
  · rintro ⟨s, hs, hbytes, hsectors, hsig⟩
    obtain rfl := Option.some.inj (hs.unique hr)
    exact ⟨hbytes, (hasElfSignature_storeSectors hsectors).2 hsig⟩
  · rintro ⟨hbytes, hsig⟩
    have hsectors : loadedSectors (disk (sectorAt gpte seeker)) ≠ 0 := by
      intro h₀
      rw [h₀, storeSectors_zero] at hsig
      exact not_hasElfSignature_fill rfl hsig
    exact ⟨seeker, hr, hbytes, hsectors, (hasElfSignature_storeSectors hsectors).1 hsig⟩

/-- With memory that is mapped and cleared, what comes after depends on the file: there is no
    other allocation, and the kernel is entered if and only if there is a file with the signature,
    and the loader gets through it. -/
theorem enterKernel_spec (hl : d.Live)
    (hp : CString (st.mem.fill base 268435456 0) path kernelPath)
    (hbase : base + 268435456 < 2 ^ 47) {mapped : ℕ} (hmapped : base + 268435456 ≤ mapped)
    {r : Option UInt64} (hr : StopsAt d.disk gpte numSectorsU32 kernelPath 0 r) :
    ∃ d' events entered, (enterKernel ports d { st with mem := st.mem.fill base 268435456 0 } gpte
        path (0xFFFF800000000000 + base)).Returns (d', events, entered) ∧
      (¬CanEnter d.disk st mapped gpte base ∧ NotEntered events ∨
        CanEnter d.disk st mapped gpte base ∧ ∃ entryPoint bytesLoaded, bytesLoaded ≠ 0 ∧
          events = [.fileLoaded gpte bytesLoaded, .signatureCompared 0,
            .kernelEntered entryPoint]) := by
  cases r with
  | none =>
    have hnot : ¬CanEnter d.disk st mapped gpte base := fun ⟨_, ⟨_, hs, _⟩, _⟩ =>
      absurd (hs.unique hr) (by simp)
    obtain ⟨d', h⟩ := ustarLoadFile_none hl hp hr (base + 167772160)
    rcases enterKernel_cases { st with mem := st.mem.fill base 268435456 0 } hbase h with
      ⟨events, hret, hevents, _⟩ | ⟨hbytes, _⟩
    · exact ⟨d', events, none, hret, .inl ⟨hnot, hevents⟩⟩
    · exact absurd rfl hbytes
  | some seeker =>
    obtain ⟨d', h⟩ := ustarLoadFile_found hl hp hr (base + 167772160)
    have helf := hasElf_iff st base hr
    rcases enterKernel_cases { st with mem := st.mem.fill base 268435456 0 } hbase h with
      ⟨events, hret, hevents, hnone⟩ | ⟨hbytes, hsig, entry, hmap, hret⟩
    · refine ⟨d', events, none, hret, .inl ⟨?_, hevents⟩⟩
      rintro ⟨_, he, hloads⟩
      obtain ⟨hbytes, hsig⟩ := helf.1 he
      exact hnone.elim hbytes fun h => h.elim (fun h => h hsig) fun h => h (hloads seeker hr)
    · refine ⟨d', _, _, hret, .inr ⟨⟨hmapped, helf.2 ⟨hbytes, hsig⟩, fun s hs => ?_⟩, _, _, hbytes,
        rfl⟩⟩
      obtain rfl := Option.some.inj (hs.unique hr)
      exact ⟨entry, hmap⟩

/-- It only ends if the walk for the file does. -/
theorem stopsAt_of_enterKernel (hl : d.Live) (hp : CString st.mem path kernelPath) {exe : ℕ}
    {a : AtaDevice × List BootEvent × Option KernelEntry}
    (h : (enterKernel ports d st gpte path exe).Returns a) :
    ∃ r, StopsAt d.disk gpte numSectorsU32 kernelPath 0 r := by
  rw [enterKernel, returns_bind_iff] at h
  obtain ⟨_, h, _⟩ := h
  exact stopsAt_of_ustarLoadFile hl hp h

/-- With memory for the kernel, which is mapped as far as `mapped`, a kernel is entered if and only
    if what is found can be entered, and there is no other allocation. -/
theorem loadKernel_spec (hl : d.Live) {mapped : ℕ}
    (hp : CString (st.mem.fill base 268435456 0) path kernelPath)
    (hbase : base + 268435456 < 2 ^ 47)
    (hset : base + 268435456 ≤ mapped ∧
        Virtual.memset st.mem (0xFFFF800000000000 + base) 0 268435456 =
          .ok (st.mem.fill base 268435456 0) ∨
      ¬base + 268435456 ≤ mapped ∧
        ∃ v, Virtual.memset st.mem (0xFFFF800000000000 + base) 0 268435456 = .error v)
    {a : AtaDevice × List BootEvent × Option KernelEntry}
    (h : (loadKernel ports d st gpte path (0xFFFF800000000000 + base)).Returns a) :
    ¬CanEnter d.disk st mapped gpte base ∧ NotEntered a.2.1 ∨
      CanEnter d.disk st mapped gpte base ∧ ∃ entryPoint bytesLoaded, bytesLoaded ≠ 0 ∧
        a.2.1 = [.memoryCleared (0xFFFF800000000000 + base) 268435456, .fileLoaded gpte bytesLoaded,
          .signatureCompared 0, .kernelEntered entryPoint] := by
  rcases hset with ⟨hmapped, hset⟩ | ⟨hnot, hset⟩
  · obtain ⟨events, henter, hlog⟩ := (loadKernel_mapped hset (by omega)).1 h
    -- The run has gone on as the sectors of the disk say.
    obtain ⟨s, hs⟩ := stopsAt_of_enterKernel hl hp henter
    obtain ⟨d', events', entered, henter', hcases⟩ := enterKernel_spec hl hp hbase hmapped hs
    obtain ⟨_, hevents⟩ := Prod.mk.inj (henter.unique henter')
    obtain ⟨rfl, _⟩ := Prod.mk.inj hevents
    rw [hlog]
    rcases hcases with ⟨hcan, hnot⟩ | ⟨hcan, e, n, hn, rfl⟩
    · exact .inl ⟨hcan, by simpa using hnot.1, by simpa using hnot.2⟩
    · exact .inr ⟨hcan, e, n, hn, rfl⟩
  · obtain ⟨events, hload, hevents⟩ := loadKernel_unmapped ports d gpte path hset
    obtain rfl := h.unique hload
    exact .inl ⟨fun hcan => hnot hcan.1, hevents⟩

/-- What can be entered is. -/
theorem loadKernel_returns_of_canEnter (hl : d.Live) {mapped : ℕ}
    (hp : CString (st.mem.fill base 268435456 0) path kernelPath)
    (hbase : base + 268435456 < 2 ^ 47)
    (hset : base + 268435456 ≤ mapped ∧
        Virtual.memset st.mem (0xFFFF800000000000 + base) 0 268435456 =
          .ok (st.mem.fill base 268435456 0) ∨
      ¬base + 268435456 ≤ mapped ∧
        ∃ v, Virtual.memset st.mem (0xFFFF800000000000 + base) 0 268435456 = .error v)
    (h : CanEnter d.disk st mapped gpte base) :
    ∃ a, (loadKernel ports d st gpte path (0xFFFF800000000000 + base)).Returns a := by
  obtain ⟨hmapped, hset⟩ := hset.resolve_right fun hnot => hnot.1 h.1
  obtain ⟨seeker, hs, _⟩ := h.2.1
  obtain ⟨d', events, entered, henter, _⟩ := enterKernel_spec hl hp hbase hmapped hs
  exact ⟨(d', _, entered), (loadKernel_mapped hset (by omega)).2 ⟨events, henter, rfl⟩⟩

end load

/-! ## The whole sequence -/

section main

variable {d : AtaDevice} {m stack : Memory} {buffer name path : ℕ} {gpte : GPTEntry}
  {inspected : List ℕ} {scanned rs : List BiosMemoryRegion}

/-- Where the searches end, the rest of the sequence is `loadKernel`. -/
theorem cbootMain_returns_iff (hl : d.Live) (hm : BootLayout m path scanned rs)
    (h : SearchesEnd d.disk stack m buffer name scanned gpte inspected) :
    ∃ d', d'.Live ∧ d'.disk = d.disk ∧ ∀ a,
      (cbootMain ports d (.boot m) stack buffer name path).Returns a ↔ ∃ events,
        (loadKernel ports d' (setupPhysicalMap (.boot m) (freeMemory scanned).toNat) gpte path
          (allocated (firstFit rs 268435456))).Returns (a.1, events, a.2.2) ∧
        a.2.1 = .partitionSearched gpte inspected ::
          .spaceAllocated (allocated (firstFit rs 268435456)) :: events := by
  obtain ⟨hloop, hmap, hstop⟩ := h
  obtain ⟨d₁, ha₁, hfind⟩ :=
    Virtual.findPartitionByName_returns_iff hl stack (PagingState.boot m).mem buffer name
  have h₁ := (hfind (d₁, .ok (gpte, inspected))).2 ⟨rfl, hloop⟩
  have hl₁ := ha₁.live hl
  rw [← ha₁.disk] at hstop
  have htest := ((testPhysicalMap_cases m hm.total_le []).resolve_right fun h => h.1 hmap).2
  obtain ⟨⟨d₂, n⟩, h₂⟩ := (exists_ustarGetNumSectors_iff hl₁ hm.kernel).2 hstop
  obtain ⟨cmds, ha₂⟩ := after_ustarGetNumSectors hl₁ hm.kernel h₂
  have h₃ := allocateSpaceForKernel_returns 268435456 hm.allocate
  refine ⟨d₂, ha₂.live hl₁, ha₂.disk.trans ha₁.disk, fun a => ?_⟩
  rw [cbootMain, (scanBiosMemmap_returns hm.scan).bind_iff]
  simp only
  rw [h₁.bind_iff]
  simp only
  rw [htest.bind_iff]
  simp only
  rw [h₂.bind_iff]
  simp only
  rw [h₃.bind_iff, returns_bind_iff]
  constructor
  · rintro ⟨⟨d', events, entered⟩, h, ha⟩
    obtain rfl := returns_pure_iff.1 ha
    exact ⟨events, h, rfl⟩
  · rintro ⟨events, h, ha⟩
    exact ⟨(a.1, events, a.2.2), h, returns_pure_iff.2 (Prod.ext rfl (Prod.ext ha rfl))⟩

/-- If the sequence ends, then so does the search for the partition. -/
theorem search_of_cbootMain (hm : BootLayout m path scanned rs)
    {a : AtaDevice × List BootEvent × Option KernelEntry}
    (h : (cbootMain ports d (.boot m) stack buffer name path).Returns a) :
    ∃ r, (Virtual.findPartitionByName ports d stack (PagingState.boot m).mem buffer
      name).Returns r := by
  rw [cbootMain, (scanBiosMemmap_returns hm.scan).bind_iff] at h
  simp only at h
  obtain ⟨r, hr, _⟩ := returns_bind_iff.1 h
  exact ⟨r, hr⟩

theorem searchEnds_of_returns (hl : d.Live) {d' : AtaDevice}
    (h : (Virtual.findPartitionByName ports d stack m buffer name).Returns
      (d', .ok (gpte, inspected))) : SearchEnds d.disk stack m buffer name gpte inspected := by
  obtain ⟨_, _, hfind⟩ := Virtual.findPartitionByName_returns_iff hl stack m buffer name
  exact ((hfind _).1 h).2

/-- If nothing faults, so do the others. -/
theorem searchesEnd_of_cbootMain (hl : d.Live) (hm : BootLayout m path scanned rs)
    {a : AtaDevice × List BootEvent × Option KernelEntry}
    (h : (cbootMain ports d (.boot m) stack buffer name path).Returns a)
    (hends : SearchEnds d.disk stack (PagingState.boot m).mem buffer name gpte inspected)
    (hmap : Mappable scanned) :
    SearchesEnd d.disk stack m buffer name scanned gpte inspected := by
  obtain ⟨d₁, ha₁, hfind⟩ :=
    Virtual.findPartitionByName_returns_iff hl stack (PagingState.boot m).mem buffer name
  have htest := ((testPhysicalMap_cases m hm.total_le []).resolve_right fun h => h.1 hmap).2
  rw [cbootMain, (scanBiosMemmap_returns hm.scan).bind_iff] at h
  simp only at h
  rw [((hfind (d₁, .ok (gpte, inspected))).2 ⟨rfl, hends⟩).bind_iff] at h
  simp only at h
  rw [htest.bind_iff] at h
  simp only at h
  obtain ⟨b, h₂, _⟩ := returns_bind_iff.1 h
  have hstop := (exists_ustarGetNumSectors_iff (ha₁.live hl) hm.kernel).1 ⟨b, h₂⟩
  rw [ha₁.disk] at hstop
  exact ⟨hends, hmap, hstop⟩

/-- If the search for the partition faults, the sequence ends there. -/
theorem cbootMain_search_faults (hm : BootLayout m path scanned rs) {d' : AtaDevice} {v : ℕ}
    (h : (Virtual.findPartitionByName ports d stack (PagingState.boot m).mem buffer name).Returns
      (d', .error v)) :
    (cbootMain ports d (.boot m) stack buffer name path).Returns (d', [.faulted v], none) := by
  rw [cbootMain, (scanBiosMemmap_returns hm.scan).bind_iff]
  simp only
  rw [h.bind_iff]
  exact returns_pure_iff.2 rfl

/-- So it does at the test of the physical map, if memory cannot be mapped. -/
theorem cbootMain_test_faults (hl : d.Live) (hm : BootLayout m path scanned rs)
    (h : SearchEnds d.disk stack (PagingState.boot m).mem buffer name gpte inspected)
    (hmap : ¬Mappable scanned) :
    ∃ d' v, (cbootMain ports d (.boot m) stack buffer name path).Returns
      (d', [.partitionSearched gpte inspected, .faulted v], none) := by
  obtain ⟨d₁, _, hfind⟩ :=
    Virtual.findPartitionByName_returns_iff hl stack (PagingState.boot m).mem buffer name
  obtain ⟨_, htest⟩ := (testPhysicalMap_cases m hm.total_le []).resolve_left fun h => hmap h.1
  refine ⟨d₁, 0xFFFF800000000000, ?_⟩
  rw [cbootMain, (scanBiosMemmap_returns hm.scan).bind_iff]
  simp only
  rw [((hfind (d₁, .ok (gpte, inspected))).2 ⟨rfl, h⟩).bind_iff]
  simp only
  rw [htest.bind_iff]
  exact returns_pure_iff.2 rfl

/-- A run that ends has ended with a fault, or come to the memory for the kernel. -/
theorem cbootMain_cases (hl : d.Live) (hm : BootLayout m path scanned rs)
    {a : AtaDevice × List BootEvent × Option KernelEntry}
    (h : (cbootMain ports d (.boot m) stack buffer name path).Returns a) :
    (∃ v, a.2.1 = [.faulted v]) ∨
      (∃ gpte inspected v, a.2.1 = [.partitionSearched gpte inspected, .faulted v]) ∨
      ∃ gpte inspected, SearchesEnd d.disk stack m buffer name scanned gpte inspected := by
  obtain ⟨⟨d', found⟩, hfound⟩ := search_of_cbootMain hm h
  cases found with
  | error v =>
    obtain rfl := h.unique (cbootMain_search_faults hm hfound)
    exact .inl ⟨v, rfl⟩
  | ok found =>
    obtain ⟨gpte, inspected⟩ := found
    have hends := searchEnds_of_returns hl hfound
    by_cases hmap : Mappable scanned
    · exact .inr (.inr ⟨gpte, inspected, searchesEnd_of_cbootMain hl hm h hends hmap⟩)
    · obtain ⟨d', v, hfault⟩ := cbootMain_test_faults hl hm hends hmap
      obtain rfl := h.unique hfault
      exact .inr (.inl ⟨gpte, inspected, v, rfl⟩)

/-- The pointer to the memory for the kernel, in a region that fits. -/
theorem allocated_firstFit (hm : BootLayout m path scanned rs) {r : BiosMemoryRegion}
    (hr : firstFit rs 268435456 = some r) :
    allocated (firstFit rs 268435456) = 0xFFFF800000000000 + r.baseAddress.toNat ∧
      0x100000 ≤ r.baseAddress.toNat := by
  have hend := hm.physical r hr
  refine ⟨?_, UInt64.le_iff_toNat_le.1 (firstFit_spec hr).2.1⟩
  rw [hr, allocated, Option.map_some, Option.getD_some, physicalToVirtualAddress_eq (by omega)]

/-- Clearing the memory for the kernel keeps the path, and faults if it is not mapped. -/
theorem clear_cases (hm : BootLayout m path scanned rs) (hmap : Mappable scanned)
    {r : BiosMemoryRegion} (hr : firstFit rs 268435456 = some r) :
    CString ((setupPhysicalMap (.boot m) (freeMemory scanned).toNat).mem.fill
        r.baseAddress.toNat 268435456 0) path kernelPath ∧
      (r.baseAddress.toNat + 268435456 ≤ numGigs (freeMemory scanned).toNat * 2 ^ 30 ∧
          Virtual.memset (setupPhysicalMap (.boot m) (freeMemory scanned).toNat).mem
            (0xFFFF800000000000 + r.baseAddress.toNat) 0 268435456 =
            .ok ((setupPhysicalMap (.boot m) (freeMemory scanned).toNat).mem.fill
              r.baseAddress.toNat 268435456 0) ∨
        ¬r.baseAddress.toNat + 268435456 ≤ numGigs (freeMemory scanned).toNat * 2 ^ 30 ∧
          ∃ v, Virtual.memset (setupPhysicalMap (.boot m) (freeMemory scanned).toNat).mem
            (0xFFFF800000000000 + r.baseAddress.toNat) 0 268435456 = .error v) := by
  obtain ⟨_, hbase⟩ := allocated_firstFit hm hr
  have hend := hm.physical r hr
  generalize r.baseAddress.toNat = base at hbase hend ⊢
  exact ⟨cString_cleared hm.kernel hm.low hbase,
    memset_physical_cases m hmap.2 (Nat.le_trans (by decide) hbase) (by decide) hend⟩

/-- Without memory for the kernel, the sequence does not fail safely, if it gets there. -/
theorem not_bootFailsSafely_of_none (hl : d.Live) (hm : BootLayout m path scanned rs)
    (h : SearchesEnd d.disk stack m buffer name scanned gpte inspected)
    (hnone : firstFit rs 268435456 = none) :
    ¬BootFailsSafely d (.boot m) stack buffer name path := by
  intro hboot
  obtain ⟨d', _, _, hmain⟩ := cbootMain_returns_iff hl hm h
  obtain ⟨events, hload, _, hnot⟩ := loadKernel_null ports d'
    (setupPhysicalMap (.boot m) (freeMemory scanned).toNat) gpte path
  rw [hnone] at hmain
  have hsafe := hboot _ _ _ ((hmain (d', _, none)).2 ⟨_, hload, rfl⟩)
  exact hnot (hsafe.halts [.partitionSearched gpte inspected] _ rfl)

/-- Where there was memory, there is nothing to say about halting without. -/
theorem not_mem_spaceAllocated {kaddr : ℕ} {events before after : List BootEvent} (hne : kaddr ≠ 0)
    (hspace : ∀ kaddr, .spaceAllocated kaddr ∉ events) :
    .partitionSearched gpte inspected :: .spaceAllocated kaddr :: events ≠
      before ++ .spaceAllocated 0 :: after := by
  intro hlog
  have hmem : BootEvent.spaceAllocated 0 ∈ before ++ .spaceAllocated 0 :: after :=
    List.mem_append_right _ List.mem_cons_self
  rw [← hlog] at hmem
  simp only [List.mem_cons, reduceCtorEq, BootEvent.spaceAllocated.injEq, false_or] at hmem
  exact hmem.elim (fun h => hne h.symm) fun h => hspace 0 h

variable {buf : Memory}

/-- A run in which the kernel has been entered fails safely if it is that of a partition. -/
theorem failsSafely_entered_iff {kaddr size entryPoint : ℕ} {bytesLoaded : UInt64}
    (hne : kaddr ≠ 0) (hbytes : bytesLoaded ≠ 0) :
    FailsSafely buf m name [.partitionSearched gpte inspected, .spaceAllocated kaddr,
      .memoryCleared kaddr size, .fileLoaded gpte bytesLoaded, .signatureCompared 0,
      .kernelEntered entryPoint] ↔ HasNamed buf m name inspected := by
  constructor
  · intro hsafe
    obtain ⟨gpte', inspected', _, _, hmem, hnamed, _⟩ := hsafe.entered entryPoint (by simp)
    obtain ⟨rfl, rfl⟩ : gpte' = gpte ∧ inspected' = inspected := by simpa using hmem
    exact hnamed
  · intro hnamed
    exact ⟨fun _ _ => ⟨gpte, inspected, _, _, List.mem_cons_self, hnamed, by simp, hne, by simp,
      hbytes, by simp⟩, fun _ _ hlog => absurd hlog (not_mem_spaceAllocated hne (by simp))⟩

/-- A run in which there was memory, and no kernel has been entered, fails safely. -/
theorem failsSafely_of_notEntered {kaddr : ℕ} {events : List BootEvent} (hne : kaddr ≠ 0)
    (h : NotEntered events) : FailsSafely buf m name
      (.partitionSearched gpte inspected :: .spaceAllocated kaddr :: events) := by
  refine ⟨fun e he => ?_, fun _ _ hlog => absurd hlog (not_mem_spaceAllocated hne h.2)⟩
  simp only [List.mem_cons, reduceCtorEq, false_or] at he
  exact absurd he (h.1 e)

/-- So does one that has ended before. -/
theorem failsSafely_of_stopped {log : List BootEvent} (h : NotEntered log) :
    FailsSafely buf m name log := by
  refine ⟨fun e he => absurd he (h.1 e), fun before after hlog => ?_⟩
  have hmem : BootEvent.spaceAllocated 0 ∈ before ++ .spaceAllocated 0 :: after :=
    List.mem_append_right _ List.mem_cons_self
  rw [← hlog] at hmem
  exact absurd hmem (h.2 0)

/-- The sequence fails safely if and only if, whenever the searches end, there is memory for the
    kernel, and what is found without a partition cannot be entered as one. -/
theorem bootFailsSafely_iff (hl : d.Live) (hm : BootLayout m path scanned rs)
    (stack : Memory) (buffer name : ℕ) :
    BootFailsSafely d (.boot m) stack buffer name path ↔
      ∀ gpte inspected, SearchesEnd d.disk stack m buffer name scanned gpte inspected →
        ∃ r, firstFit rs 268435456 = some r ∧ (gpte.Used ∨
          ¬CanEnter d.disk (setupPhysicalMap (.boot m) (freeMemory scanned).toNat)
            (numGigs (freeMemory scanned).toNat * 2 ^ 30) gpte r.baseAddress.toNat) := by
  constructor
  · intro h gpte inspected hsearch
    cases hfirst : firstFit rs 268435456 with
    | none => exact absurd h (not_bootFailsSafely_of_none hl hm hsearch hfirst)
    | some r =>
      refine ⟨r, rfl, or_iff_not_imp_right.2 fun hcan => ?_⟩
      have hcan := not_not.1 hcan
      obtain ⟨d', hl', hdisk, hmain⟩ := cbootMain_returns_iff hl hm hsearch
      obtain ⟨hkaddr, hbase⟩ := allocated_firstFit hm hfirst
      obtain ⟨hp, hset⟩ := clear_cases hm hsearch.mappable hfirst
      rw [← hdisk] at hcan
      obtain ⟨a, hload⟩ :=
        loadKernel_returns_of_canEnter hl' hp (hm.physical r hfirst) hset hcan
      rcases loadKernel_spec hl' hp (hm.physical r hfirst) hset hload with
        ⟨hnot, _⟩ | ⟨_, entryPoint, bytesLoaded, hbytes, hevents⟩
      · exact absurd hcan hnot
      · rw [← hkaddr] at hload hevents
        have hsafe := h a.1 (.partitionSearched gpte inspected ::
          .spaceAllocated (allocated (firstFit rs 268435456)) :: a.2.1) a.2.2
          ((hmain _).2 ⟨_, hload, rfl⟩)
        rw [hevents] at hsafe
        exact (used_iff_hasNamed (Virtual.loop_entryRound_ok hsearch.search)).2
          ((failsSafely_entered_iff (by omega) hbytes).1 hsafe)
  · rintro h d' log entered hlog
    rcases cbootMain_cases hl hm hlog with
      ⟨v, hfault⟩ | ⟨_, _, v, hfault⟩ | ⟨gpte, inspected, hsearch⟩
    · obtain rfl : log = _ := hfault
      exact failsSafely_of_stopped ⟨by simp, by simp⟩
    · obtain rfl : log = _ := hfault
      exact failsSafely_of_stopped ⟨by simp, by simp⟩
    · obtain ⟨r, hfirst, hused⟩ := h gpte inspected hsearch
      obtain ⟨d₁, hl₁, hdisk, hmain⟩ := cbootMain_returns_iff hl hm hsearch
      obtain ⟨events, hload, hlog⟩ := (hmain _).1 hlog
      obtain ⟨hkaddr, hbase⟩ := allocated_firstFit hm hfirst
      obtain ⟨hp, hset⟩ := clear_cases hm hsearch.mappable hfirst
      have hne : allocated (firstFit rs 268435456) ≠ 0 := by omega
      obtain rfl : log = _ := hlog
      rw [hkaddr] at hload
      rcases loadKernel_spec hl₁ hp (hm.physical r hfirst) hset hload with
        ⟨_, hnot⟩ | ⟨hcan, entryPoint, bytesLoaded, hbytes, hevents⟩
      · exact failsSafely_of_notEntered hne hnot
      · obtain rfl : events = _ := hevents
        rw [hdisk] at hcan
        rw [← hkaddr]
        exact (failsSafely_entered_iff hne hbytes).2
          ((used_iff_hasNamed (Virtual.loop_entryRound_ok hsearch.search)).1
            (hused.resolve_right (not_not_intro hcan)))

end main

/-! ## A disk of zeros -/

section zeros

/-- The sequence is handed a map in front of the page tables, and the path is in the program. -/
theorem bootLayout_boot {m : Memory} {path : ℕ} {rs : List BiosMemoryRegion}
    (hrs : RegionsAt m biosMemoryMapLocation rs) (hlen : rs.length ≤ 116)
    (hpath : CString m path kernelPath)
    (hprogram : 0x5000 ≤ path ∧ path + kernelPath.length < 0x20000)
    (htotal : (freeMemory rs).toNat ≤ 2 ^ 46)
    (hphysical : ∀ r, firstFit rs 268435456 = some r →
      r.baseAddress.toNat + 268435456 < 2 ^ 47) : BootLayout m path rs rs where
  scan := hrs.congr fun x h₁ h₂ => by
    rw [biosMemoryMapLocation] at h₂
    exact setupAndEnablePaging_of_not_mem (.inl (by omega))
  allocate := hrs.congr fun x h₁ h₂ => by
    rw [biosMemoryMapLocation] at h₂
    exact setupPhysicalMap_of_offTables m _ ⟨by omega, by omega⟩
  regions_low := by
    rw [biosMemoryMapLocation]
    omega
  kernel := hpath.congr fun x h₁ h₂ => setupPhysicalMap_of_offTables m _ ⟨by omega, by omega⟩
  low := by omega
  total_le := htotal
  physical := hphysical

/-- A memory with the map of one region, and the path of the kernel. -/
def bootMemory (r : BiosMemoryRegion) : Memory :=
  writeRegion (Memory.store (fun _ => 0) 0x8000 kernelPath) biosMemoryMapLocation r

theorem bootLayout_one {r : BiosMemoryRegion} (htype : r.type ≠ 0)
    (htotal : (freeMemory [r]).toNat ≤ 2 ^ 46)
    (hphysical : r.baseAddress.toNat + 268435456 < 2 ^ 47) :
    BootLayout (bootMemory r) 0x8000 [r] [r] := by
  have hzero : ∀ x, x < 0x8000 → Memory.store (fun _ => 0) 0x8000 kernelPath x = 0 :=
    fun x hx => Memory.store_of_lt hx
  refine bootLayout_boot ⟨readRegion_writeRegion _ _ r, htype, ?_⟩ (show 1 ≤ 116 by decide) ?_
    ⟨by decide, by decide⟩ htotal fun r' hr' => ?_
  · refine congrArg UInt32.ofNat (Memory.read_eq_zero fun i hi => ?_)
    rw [bootMemory, writeRegion_of_not_mem (.inr (by omega))]
    exact hzero _ (by rw [biosMemoryMapLocation]; omega)
  · refine CString.congr (m := Memory.store (fun _ => 0) 0x8000 kernelPath)
      (cString_store (by simp [kernelPath]) rfl) fun x hx _ => writeRegion_of_not_mem (.inr ?_)
    rw [biosMemoryMapLocation]
    omega
  · obtain rfl := List.mem_singleton.1 (firstFit_spec hr').1
    exact hphysical

theorem zeros_stopsAt (gpte : GPTEntry) (numSectors : UInt64 → UInt32) :
    StopsAt (fun _ _ => 0) gpte numSectors kernelPath 0 none :=
  .last fun h => absurd (h 0 (by decide)) (by decide)

/-- On a disk of zeros, there is no partition, and no archive. -/
theorem zeros_searchesEnd (stack m : Memory) {buffer : ℕ} (name : ℕ)
    {scanned : List BiosMemoryRegion} (hbuffer : buffer + 120 ≤ 2 ^ 21) (h : Mappable scanned) :
    SearchesEnd (fun _ _ => 0) stack m buffer name scanned nullEntry [0] := by
  have hnull : NullEntryAt (partitionBuffer stack fun _ _ => 0) 0 :=
    (nullEntryAt_partitionBuffer (by decide)).2 fun _ _ => rfl
  refine ⟨Virtual.loop_ok_of_loop (.loop_done (entryRound_null hnull)) fun a ha => ?_, h, none,
    zeros_stopsAt _ _⟩
  obtain rfl := List.mem_singleton.1 ha
  exact hbuffer

/-- With 1 GB of memory and nothing on the disk, the sequence fails safely. -/
theorem bootFailsSafely_zeros :
    BootFailsSafely (driveOf fun _ _ => 0) (.boot (bootMemory ⟨0x100000, 0x40000000, 1, 0⟩))
      (fun _ => 0) 0x6E000 0 0x8000 := by
  refine (bootFailsSafely_iff (live_driveOf _) (bootLayout_one (by decide) (by decide) (by decide))
    _ _ _).2 fun gpte _ _ => ⟨_, rfl, .inr ?_⟩
  rintro ⟨_, ⟨_, h, _⟩, _⟩
  exact absurd (h.unique (zeros_stopsAt gpte numSectorsU32)) (by simp)

/-- With 128 MB, it clears the memory from the address 0 on, and does not halt at once. -/
theorem not_bootFailsSafely_128mb :
    ¬BootFailsSafely (driveOf fun _ _ => 0) (.boot (bootMemory ⟨0x100000, 0x8000000, 1, 0⟩))
      (fun _ => 0) 0x6E000 0 0x8000 :=
  not_bootFailsSafely_of_none (live_driveOf _)
    (bootLayout_one (by decide) (by decide) (by decide))
    (zeros_searchesEnd _ _ _ (by decide) (by decide)) (by decide)

end zeros

end Cboot
