import Cboot.Archive.Lookup
import Cboot.Boot
import Cboot.Kernel.Faithful
import Cboot.Paging.Above

/-!
# Handing over to the kernel

From the disk to the kernel: what is in memory when `cboot_main` enters the kernel, told by what
was on the disk and in memory before.

* `ElfFile.segments_eq`: what the loader reads of a file does not depend on where the file is;
* `cbootMain_enters`: with the kernel in the archive of the partition, the sequence enters it, and
  the first page of each of its segments shows the file. Every other page does as well what the
  first one does.
-/

namespace Cboot

open AtaDevice Fueled

/-! ## The file -/

section file

variable {m file : Memory} {p q len i a n : ℕ}

/-- A field of the file is where the file is. -/
theorem read_moved (h : ∀ y < len, m (p + y) = file (q + y)) (ha : a + n ≤ len) :
    m.read n (p + a) = file.read n (q + a) :=
  Memory.read_congr fun i hi => by rw [Nat.add_assoc, Nat.add_assoc, h _ (by omega)]

theorem ElfFile.readFileHeader_eq (hf : ElfFile file q len)
    (h : ∀ y < len, m (p + y) = file (q + y)) : readFileHeader m p = readFileHeader file q := by
  have hlen := hf.header
  rw [readFileHeader, read_moved h (by omega), read_moved h (by omega), read_moved h (by omega),
    read_moved h (by omega)]
  rfl

theorem ElfFile.numHeaders_eq (hf : ElfFile file q len) (h : ∀ y < len, m (p + y) = file (q + y)) :
    numHeaders m p = numHeaders file q := by
  rw [numHeaders, hf.readFileHeader_eq h, numHeaders]

/-- The file is in order wherever it is. -/
theorem ElfFile.move (hf : ElfFile file q len) (h : ∀ y < len, m (p + y) = file (q + y))
    (hp : p + len ≤ 2 ^ 64) : ElfFile m p len := by
  refine ⟨hf.header, fun i hi => ?_, hp⟩
  rw [hf.numHeaders_eq h] at hi
  rw [hf.readFileHeader_eq h]
  exact hf.table i hi

theorem ElfFile.programHeader_eq (hf : ElfFile file q len)
    (h : ∀ y < len, m (p + y) = file (q + y)) (hp : p + len ≤ 2 ^ 64)
    (hi : i < numHeaders file q) : programHeader m p i = programHeader file q i := by
  have ht := hf.table i hi
  have hw := hf.no_wrap
  rw [programHeader, programHeader, headerAddr, headerAddr, hf.readFileHeader_eq h]
  generalize hx : (readFileHeader file q).programHeaderTablePosition = x at ht ⊢
  generalize hy : i * (readFileHeader file q).programHeaderTableEntrySize = y at ht ⊢
  rw [Nat.mod_eq_of_lt (by omega), Nat.mod_eq_of_lt (by omega), readProgramHeader,
    readProgramHeader]
  simp only [Nat.add_assoc]
  rw [read_moved h (by omega), read_moved h (by omega), read_moved h (by omega),
    read_moved h (by omega), read_moved h (by omega), read_moved h (by omega)]

/-- What the loader loads does not depend on where the file is. -/
theorem ElfFile.segments_eq (hf : ElfFile file q len) (h : ∀ y < len, m (p + y) = file (q + y))
    (hp : p + len ≤ 2 ^ 64) : segments m p = segments file q := by
  rw [segments, segments, segmentsFrom, segmentsFrom, hf.numHeaders_eq h]
  refine congrArg (List.filter _) (List.map_congr_left fun i hi => ?_)
  have hi := (List.mem_range'_1.1 hi).2
  exact hf.programHeader_eq h hp (by omega)

end file

namespace LoadInvariant

variable {σ : Type*} {M : Machine σ} {elfFile codeBuffer : ℕ} {m : Memory} {I B : σ → Prop}
  {Bad : ELF64ProgramHeader → Prop} {s : σ} {k kernelSize : ℕ}

/-- Where nothing can go wrong, a round adds the size of its segment. -/
theorem loadHeader_size (hI : LoadInvariant M elfFile codeBuffer m I B Bad) (hB : ∀ s, ¬B s)
    (hs : I s) (hk : k < numHeaders m elfFile) :
    I (loadHeader M elfFile codeBuffer (headerAddr m elfFile k) s kernelSize).1 ∧
    (loadHeader M elfFile codeBuffer (headerAddr m elfFile k) s kernelSize).2 =
      if (programHeader m elfFile k).type = 1 then
        (kernelSize + (programHeader m elfFile k).memsz) % 2 ^ 64
      else kernelSize := by
  obtain ⟨hr, _⟩ := (hI.loadHeader_cases hs hk kernelSize).resolve_right fun h => hB _ h.1
  refine ⟨hr, ?_⟩
  have hheader := (hI.kept hr).program k hk
  rw [loadHeader] at hheader ⊢
  rw [(hI.kept hs).program k hk] at hheader ⊢
  by_cases ht : (programHeader m elfFile k).type = 1
  · -- The header is read once more, after the pages.
    rw [if_pos ht] at hheader
    rw [if_pos ht, if_pos ht]
    exact congrArg (fun h : ELF64ProgramHeader => (kernelSize + h.memsz) % 2 ^ 64) hheader
  · rw [if_neg ht, if_neg ht]

theorem loadHeaders_size (hI : LoadInvariant M elfFile codeBuffer m I B Bad) (hB : ∀ s, ¬B s)
    (hs : I s) (hk : k < numHeaders m elfFile) (hsize : kernelSize < 2 ^ 64) :
    (loadHeaders M elfFile codeBuffer k (headerAddr m elfFile k) s kernelSize).2 =
      (kernelSize + ((segmentsFrom m elfFile k).map (·.memsz)).sum) % 2 ^ 64 := by
  induction hn : numHeaders m elfFile - k generalizing k s kernelSize with
  | zero => omega
  | succ n ih =>
    rw [loadHeaders, segmentsFrom_of_lt hk]
    obtain ⟨hr, heq⟩ : I (loadHeader M elfFile codeBuffer (headerAddr m elfFile k) s kernelSize).1 ∧
        _ := hI.loadHeader_size hB hs hk
    have hcount : (readFileHeader m elfFile).programHeaderTableEntryCount ≤
        numHeaders m elfFile := Nat.le_max_right ..
    have hlt : (loadHeader M elfFile codeBuffer (headerAddr m elfFile k) s kernelSize).2 <
        2 ^ 64 := by
      rw [heq]
      split <;> omega
    -- The sizes that are left, after the round.
    have hsum : ∀ rest : List ELF64ProgramHeader,
        ((loadHeader M elfFile codeBuffer (headerAddr m elfFile k) s kernelSize).2 +
          (rest.map (·.memsz)).sum) % 2 ^ 64 =
        (kernelSize + ((if (programHeader m elfFile k).type = 1 then
          programHeader m elfFile k :: rest else rest).map (·.memsz)).sum) % 2 ^ 64 := by
      intro rest
      rw [heq]
      split
      · rw [List.map_cons, List.sum_cons, Nat.mod_add_mod, Nat.add_assoc]
      · rfl
    simp only [(hI.kept hr).file, headerAddr_succ]
    split
    · rw [ih hr (by omega) hlt (by omega), hsum]
    · rename_i hlast
      have hle : numHeaders m elfFile ≤ k + 1 := by
        rw [numHeaders] at hk ⊢
        omega
      have hrest := hsum (segmentsFrom m elfFile (k + 1))
      rw [segmentsFrom_of_le hle] at hrest ⊢
      rw [← hrest, List.map_nil, List.sum_nil, Nat.add_zero, Nat.mod_eq_of_lt hlt]

/-- What the loader returns: the entry point of the file, and the sizes of its segments. -/
theorem mapKernel_returns (hI : LoadInvariant M elfFile codeBuffer m I B Bad) (hB : ∀ s, ¬B s)
    (hs : I s) : (mapKernel M s elfFile codeBuffer 0).2 =
      ((readFileHeader m elfFile).entryPoint, kernelMemsz m elfFile % 2 ^ 64) := by
  obtain ⟨hr, _⟩ := (hI.mapKernel_cases hs 0).resolve_right fun h => hB _ h.1
  have h₀ : (elfFile + (readFileHeader m elfFile).programHeaderTablePosition) % 2 ^ 64 =
      headerAddr m elfFile 0 := by rw [headerAddr, Nat.zero_mul, Nat.add_zero]
  have hfile := (hI.kept hr).file
  have hsize := hI.loadHeaders_size hB hs
    (Nat.lt_of_lt_of_le Nat.one_pos (Nat.le_max_left ..)) (show 0 < 2 ^ 64 by decide)
  rw [Nat.zero_add] at hsize
  rw [mapKernel, (hI.kept hs).file, h₀] at hfile ⊢
  exact Prod.ext (congrArg ELF64FileHeader.entryPoint hfile) hsize

end LoadInvariant

/-! ## Before the sequence -/

/-- `"OSDEV Root Partition"` -/
def rootPartitionName : List UInt8 :=
  [0x4F, 0x53, 0x44, 0x45, 0x56, 0x20, 0x52, 0x6F, 0x6F, 0x74, 0x20, 0x50, 0x61, 0x72, 0x74, 0x69,
    0x74, 0x69, 0x6F, 0x6E]

/-- What is in memory: the map of the BIOS, and the names in the program. The first region that
    fits begins at `base`, and the map of physical memory gets as far as its end. -/
structure MemoryReady (m : Memory) (name path : ℕ) (rs : List BiosMemoryRegion) (base : ℕ) :
    Prop where
  regions : RegionsAt m biosMemoryMapLocation rs
  length_le : rs.length ≤ 116
  name : CString m name rootPartitionName ∧ 0x5000 ≤ name
  path : CString m path kernelPath ∧ 0x5000 ≤ path ∧ path + kernelPath.length < 0x20000
  total_le : (freeMemory rs).toNat ≤ 511 * 2 ^ 30
  space : ∃ r, firstFit rs 268435456 = some r ∧ r.baseAddress.toNat = base
  aligned : base % 0x1000 = 0
  mapped : base + 268435456 ≤ numGigs (freeMemory rs).toNat * 2 ^ 30

/-- What is in the table of partitions: `n` entries with names of ASCII, one of them unused, and
    in front of that the root partition. -/
structure PartitionReady (disk : ℕ → Memory) (n : ℕ) (gpte : GPTEntry) : Prop where
  entrySize : Cboot.entrySize disk = 128
  le : n ≤ 32
  unused : ∃ e ∈ slots disk n, ¬e.Used
  names : ∀ e ∈ slots disk n, e.Used → e.HasAsciiName
  first : firstNamed ((slots disk n).takeWhile (·.Used)) rootPartitionName = some gpte

/-- What is in the partition: an archive, with the file `e` of the path of the kernel. The loader
    passes the entries in front of it, and reads all of its sectors. -/
structure ArchiveReady (disk : ℕ → Memory) (gpte : GPTEntry) (es : List Entry) (e : Entry) :
    Prop where
  stored : Stored disk gpte.startingLba.toNat es
  fits : gpte.startingLba.toNat + sectors es < 2 ^ 28
  passed : ∀ e' ∈ entriesBefore es kernelPath, Passes numSectorsU32 e'
  kernel : lookup es kernelPath = some e
  size : 0 < e.size ∧ e.size ≤ 255 * 512

/-- The bytes of the sectors from `lba` on. -/
def bytesFrom (disk : ℕ → Memory) (lba : ℕ) : Memory := fun y => disk (lba + y / 512) (y % 512)

/-- The bytes of the kernel. -/
def kernelFile (disk : ℕ → Memory) (gpte : GPTEntry) (es : List Entry) : Memory :=
  bytesFrom disk (gpte.startingLba.toNat + sectors (entriesBefore es kernelPath) + 1)

/-- What is in the file: an ELF64 file of `len` bytes, with segments that can be loaded and need
    at most 78 tables. -/
structure KernelReady (file : Memory) (len : ℕ) : Prop where
  signature : HasElfSignature file 0
  elf : ElfFile (physicalView file) 0xFFFF800000000000 len
  loadable : ∀ h ∈ imageSegments file 0, Loadable codeBufferSize len h
  tables : (imagePaths file 0).card ≤ 78

/-! ## When the kernel is entered -/

/-- The byte that is found at a virtual address. -/
def virtualByte (m : Memory) (v : ℕ) : Option UInt8 :=
  (pageWalk m 0x1000 v).map fun t => m t.paddr

/-- The byte that an address shows: that of the first page of the last segment that covers it, as
    all pages of a segment are mapped to the first one. -/
def firstPageByte (file : Memory) (v : ℕ) : Option UInt8 :=
  (lastSegment file 0 v).map fun t => imageByte file 0 (t.offset / 0x1000 * 0x1000 + v % 0x1000)

/-- The byte `i` of the segment is on its first page, at the place that it has in the file. -/
def OnFirstPage (h : ELF64ProgramHeader) (i : ℕ) : Prop :=
  h.vaddr % 0x1000 = h.offset % 0x1000 ∧ h.vaddr % 0x1000 + i < 0x1000

/-- The kernel is entered at its entry point. In its window are the first pages of its segments,
    in the code buffer: each byte of the data that is on the first page of its segment, and on
    no page of a later one, is that of the file. The map of physical memory is still there, and so
    is the map of the BIOS that it is told of. The tables are in order, below the stack. -/
structure Entered (file : Memory) (rs : List BiosMemoryRegion) (base : ℕ) (k : KernelEntry) :
    Prop where
  entryPoint : k.entryPoint = (readFileHeader (physicalView file) 0xFFFF800000000000).entryPoint
  window : ∀ v, 0xFFFF900000000000 ≤ v → v < 2 ^ 64 →
    virtualByte k.st.mem v = firstPageByte file v
  data : ∀ h ∈ imageSegments file 0, ∀ i < h.filesz, OnFirstPage h i →
    lastSegment file 0 (h.vaddr + i) = some h →
      virtualByte k.st.mem (h.vaddr + i) = some (file (h.offset + i))
  frame : ∀ v, 0xFFFF900000000000 ≤ v → v < 2 ^ 64 → ∀ t,
    pageWalk k.st.mem 0x1000 v = some t → base ≤ t.paddr ∧ t.paddr < base + codeBufferSize
  pointer : ∀ a, IsPointer (freeMemory rs).toNat a →
    pageWalk k.st.mem 0x1000 a = some ⟨a % 2 ^ 47, true⟩
  tables : (∃ own, PageTree k.st.mem k.st.it own) ∧ k.st.it ≤ 0x6F000
  regions : RegionsAt k.st.mem k.bootinfo.biosMemoryMapAddress rs
  kernelPaddr : k.bootinfo.kernelPaddr = base
  kernelSize : k.bootinfo.kernelSize = ((imageSegments file 0).map (·.memsz)).sum % 2 ^ 64

/-! ## The file in memory -/

section image

variable {m m₀ file : Memory} {total base e len v y : ℕ} {rs : List BiosMemoryRegion}
  {name path : ℕ}

/-- The file, as the loader sees it in memory and for itself. -/
theorem physicalView_file (hfile : ∀ y < len, m (e + y) = file y) (he : e + len ≤ 2 ^ 47)
    (hy : y < len) : physicalView m (0xFFFF800000000000 + e + y) =
      physicalView file (0xFFFF800000000000 + y) := by
  have h₁ : (0xFFFF800000000000 + e + y) % 2 ^ 47 = e + y := by omega
  have h₂ : (0xFFFF800000000000 + y) % 2 ^ 47 = y := by omega
  rw [physicalView, physicalView, h₁, h₂, hfile y hy]

theorem imageSegments_file (hk : KernelReady file len) (hfile : ∀ y < len, m (e + y) = file y)
    (he : e + len ≤ 2 ^ 47) : imageSegments m e = imageSegments file 0 :=
  hk.elf.segments_eq (fun _ hy => physicalView_file hfile he hy) (by omega)

theorem lastSegment_file (hk : KernelReady file len) (hfile : ∀ y < len, m (e + y) = file y)
    (he : e + len ≤ 2 ^ 47) (v : ℕ) : lastSegment m e v = lastSegment file 0 v := by
  rw [lastSegment, lastSegment, imageSegments_file hk hfile he]

theorem imageByte_file (hk : KernelReady file len) (hfile : ∀ y < len, m (e + y) = file y)
    (he : e + len ≤ 2 ^ 47) (y : ℕ) : imageByte m e y = imageByte file 0 y := by
  have hdata : HasData m e y ↔ HasData file 0 y := by
    rw [HasData, HasData, imageSegments_file hk hfile he]
  by_cases h : HasData file 0 y
  · obtain ⟨t, ht, h₁, h₂⟩ := id h
    have hin := (hk.loadable t ht).data
    rw [imageByte, imageByte, if_pos h, if_pos (hdata.2 h), hfile y (by omega), Nat.zero_add]
  · rw [imageByte, imageByte, if_neg h, if_neg (hdata.not.2 h)]

theorem imagePaths_file (hk : KernelReady file len) (hfile : ∀ y < len, m (e + y) = file y)
    (he : e + len ≤ 2 ^ 47) : imagePaths m e = imagePaths file 0 := by
  have hs : segments (physicalView m) (0xFFFF800000000000 + e) =
      segments (physicalView file) (0xFFFF800000000000 + 0) := imageSegments_file hk hfile he
  rw [imagePaths, imagePaths, kernelTablePaths, kernelTablePaths, hs]

/-- The first page of a segment shows its data. -/
theorem firstPageByte_data {h : ELF64ProgramHeader} {i : ℕ} (hh : h ∈ imageSegments file 0)
    (hi : i < h.filesz) (hfirst : OnFirstPage h i)
    (hlast : lastSegment file 0 (h.vaddr + i) = some h) :
    firstPageByte file (h.vaddr + i) = some (file (h.offset + i)) := by
  obtain ⟨hcongr, hlt⟩ := hfirst
  have hplace : h.offset / 0x1000 * 0x1000 + (h.vaddr + i) % 0x1000 = h.offset + i := by omega
  have hdata : HasData file 0 (h.offset + i) := ⟨h, hh, by omega, by omega⟩
  rw [firstPageByte, hlast, Option.map_some, hplace, imageByte, if_pos hdata, Nat.zero_add]

/-- The area of the kernel, with the file above the buffer. -/
structure FileLoaded (m file : Memory) (base len : ℕ) : Prop where
  buffer : ∀ x, base ≤ x → x < base + codeBufferSize → m x = 0
  file : ∀ y < len, m (base + codeBufferSize + y) = file y

theorem imageLayout_file (hm : MemoryReady m₀ name path rs base) (hk : KernelReady file len)
    (hlen : len ≤ 255 * 512) (hf : FileLoaded m file base len) :
    ImageLayout m (freeMemory rs).toNat base codeBufferSize (base + codeBufferSize) len := by
  have hn := numGigs_eq (show (freeMemory rs).toNat < 2 ^ 63 by have := hm.total_le; omega)
  have htotal := hm.total_le
  have hmapped := hm.mapped
  obtain ⟨r, hr, rfl⟩ := hm.space
  have habove : 0x100000 ≤ r.baseAddress.toNat := UInt64.le_iff_toNat_le.1 (firstFit_spec hr).2.1
  refine ⟨htotal, hm.aligned, ?_, ?_, .inl le_rfl, hf.buffer, ?_, ?_⟩
  · rw [codeBufferSize]
    omega
  · rw [codeBufferSize]
    omega
  · rw [codeBufferSize]
    omega
  · have hend : r.baseAddress.toNat + codeBufferSize + len ≤ 2 ^ 47 := by
      rw [codeBufferSize]
      omega
    exact hk.elf.move (fun _ hy => physicalView_file hf.file hend hy) (by omega)

/-- Below the buffer, the image is the memory that was there. -/
theorem foldl_loadSegment_below {c size : ℕ} (hl : ImageLayout m total c size e len)
    {hs : List ELF64ProgramHeader} (hhs : ∀ h ∈ hs, Loadable size len h) (k : KernelImage)
    {x : ℕ} (hx : x < c) :
    (hs.foldl (loadSegment imageMachine (0xFFFF800000000000 + e) (0xFFFF800000000000 + c)) k).mem
      x = k.mem x := by
  induction hs generalizing k with
  | nil => rfl
  | cons h hs ih =>
    have hh := hhs h List.mem_cons_self
    rw [List.foldl_cons, ih (fun h hh => hhs h (List.mem_cons_of_mem _ hh)), loadSegment,
      foldl_mapSegmentPage, copySegment]
    simp only [imageMachine, segmentData_physical hl hh]
    exact Memory.copy_of_not_mem (by omega)

/-- What is found at the addresses of the window. -/
theorem virtualByte_kernelState {c size : ℕ} {st : PagingState}
    (hl : ImageLayout m total c size e len) (hs : ∀ h ∈ imageSegments m e, Loadable size len h)
    (hpaths : (imagePaths m e).card ≤ 78)
    (hst : kernelState (setupPhysicalMap (.boot m) total) e c = st)
    (hv : 0xFFFF900000000000 ≤ v) (hv' : v < 2 ^ 64) :
    virtualByte st.mem v = (lastSegment m e v).map fun t =>
      imageByte m e (t.offset / 0x1000 * 0x1000 + v % 0x1000) := by
  have hwalk := kernelState_walk hl hs hpaths hv hv'
  have hbyte : ∀ t, lastSegment m e v = some t → _ := fun t ht =>
    kernelState_byte (v := v) hl hs hpaths (List.mem_reverse.1 (List.mem_of_find?_eq_some ht))
  rw [hst] at hwalk hbyte
  rw [virtualByte, hwalk, Option.map_map]
  exact Option.map_congr fun t ht => hbyte t ht

/-- What the loader leaves to the kernel. -/
def mappedKernel (st : PagingState) (base : ℕ) : KernelEntry :=
  kernelEntryOf (0xFFFF800000000000 + base) (mapKernel bootMachine st
    (0xFFFF800000000000 + (base + codeBufferSize)) (0xFFFF800000000000 + base) 0)

/-- With the file in memory, the loader gets through it. -/
theorem mapKernel_ok_file (hm : MemoryReady m₀ name path rs base) (hk : KernelReady file len)
    (hlen : len ≤ 255 * 512) (hf : FileLoaded m file base len) :
    Virtual.mapKernel (setupPhysicalMap (.boot m) (freeMemory rs).toNat)
        (0xFFFF800000000000 + (base + codeBufferSize)) (0xFFFF800000000000 + base) 0 =
      .ok (mapKernel bootMachine (setupPhysicalMap (.boot m) (freeMemory rs).toNat)
        (0xFFFF800000000000 + (base + codeBufferSize)) (0xFFFF800000000000 + base) 0) := by
  have hl := imageLayout_file hm hk hlen hf
  have hend : base + codeBufferSize + len ≤ 2 ^ 47 := by
    have := hl.lt
    omega
  refine hl.mapKernel_ok (fun h hh => hk.loadable h ?_) ?_ 0
  · rwa [← imageSegments_file hk hf.file hend]
  · rw [imagePaths_file hk hf.file hend]
    exact hk.tables

/-- With the file in memory, the loader maps its image. -/
theorem entered_mappedKernel (hm : MemoryReady m₀ name path rs base) (hk : KernelReady file len)
    (hlen : len ≤ 255 * 512) (hf : FileLoaded m file base len)
    (hlow : ∀ x < 0x1000, m x = m₀ x) :
    Entered file rs base
      (mappedKernel (setupPhysicalMap (.boot m) (freeMemory rs).toNat) base) := by
  have hl := imageLayout_file hm hk hlen hf
  have hend : base + codeBufferSize + len ≤ 2 ^ 47 := by
    have := hl.lt
    omega
  have hsegments := imageSegments_file hk hf.file hend
  have hload : ∀ h ∈ imageSegments m (base + codeBufferSize), Loadable codeBufferSize len h :=
    fun h hh => hk.loadable h (hsegments ▸ hh)
  have hpaths : (imagePaths m (base + codeBufferSize)).card ≤ 78 := by
    rw [imagePaths_file hk hf.file hend]
    exact hk.tables
  have hshows := mapKernel_shows hl hload hpaths
  have hret := (loadInvariant_shows hl hload hpaths).mapKernel_returns (fun _ h => h)
    ⟨_, Shows.start (m := m) hl.total_le _, fun _ _ _ => rfl⟩
  have hst : (mappedKernel (setupPhysicalMap (.boot m) (freeMemory rs).toNat) base).st =
      kernelState (setupPhysicalMap (.boot m) (freeMemory rs).toNat) (base + codeBufferSize)
        base := by rw [mappedKernel, kernelEntryOf_st, kernelState]
  have hwindow : ∀ v, 0xFFFF900000000000 ≤ v → v < 2 ^ 64 → virtualByte
      (mappedKernel (setupPhysicalMap (.boot m) (freeMemory rs).toNat) base).st.mem v =
        firstPageByte file v := fun v hv hv' => by
    rw [virtualByte_kernelState hl hload hpaths hst.symm hv hv', firstPageByte,
      lastSegment_file hk hf.file hend]
    simp only [imageByte_file hk hf.file hend]
  refine ⟨?_, hwindow, fun h hh i hi hfirst hlast => ?_, fun v hv hv' t ht => ?_, fun a ha => ?_,
    ?_, ?_, ?_, ?_⟩
  · rw [mappedKernel, kernelEntryOf_entryPoint, hret]
    rw [hk.elf.readFileHeader_eq fun _ hy => physicalView_file hf.file hend hy]
  · obtain ⟨hw₁, hw₂⟩ := (hk.loadable h hh).window
    have hpage := hfirst.2
    rw [hwindow _ (by omega) (by omega), firstPageByte_data hh hi hfirst hlast]
  · rw [hst, kernelState_walk hl hload hpaths hv hv'] at ht
    obtain ⟨h, hlast, rfl⟩ := Option.map_eq_some_iff.1 ht
    have hh := hload h (List.mem_reverse.1 (List.mem_of_find?_eq_some hlast))
    have hoffset := hh.offset
    dsimp only
    omega
  · rw [hst, hshows.refines.walk, hshows.pointer a ha]
  · rw [hst]
    exact ⟨hshows.refines.tree, hshows.it_le hpaths⟩
  · refine hm.regions.congr fun x h₁ h₂ => ?_
    have hlen := hm.length_le
    have hbuffer := hl.buffer
    rw [biosMemoryMapLocation] at h₂
    rw [hst, hshows.mem x ⟨by omega, by omega⟩, kernelImage,
      foldl_loadSegment_below hl hload _ (by omega), startImage_mem, hlow x (by omega)]
  · have hlt := hl.lt
    have hmask : (0x00001FFFFFFFFFFF : ℕ) = 2 ^ 45 - 1 := rfl
    rw [mappedKernel, kernelEntryOf_bootinfo, hmask, Nat.and_two_pow_sub_one_eq_mod]
    dsimp only
    omega
  · rw [mappedKernel, kernelEntryOf_bootinfo, hret, kernelMemsz, ← hsegments, imageSegments]

end image

/-! ## From the disk to the kernel -/

section boot

variable {d : AtaDevice} {m : Memory} {buffer name path base n : ℕ} {rs : List BiosMemoryRegion}
  {gpte : GPTEntry} {es : List Entry} {e : Entry}

/-- The root partition is found, and a buffer in low memory is mapped. -/
theorem PartitionReady.searchEnds (hl : d.Live) (hp : PartitionReady d.disk n gpte) (stack : Memory)
    (hname : CString (PagingState.boot m).mem name rootPartitionName)
    (hbuffer : buffer + 4096 ≤ 2 ^ 21) :
    ∃ inspected,
      SearchEnds d.disk stack (PagingState.boot m).mem buffer name gpte inspected := by
  obtain ⟨k, hk, hnull, hused⟩ := exists_first_unused hp.unused
  have hle := hp.le
  have hnames : ∀ i < k, (readGPTEntry (entryArray d.disk) (128 * i)).HasAsciiName := fun i hi =>
    hp.names _ (List.mem_map.2 ⟨i, List.mem_range.2 (Nat.lt_trans hi hk), rfl⟩) (hused i hi)
  have hret := findPartitionByName_returns hl stack (PagingState.boot m).mem name (k := k)
  rw [hp.entrySize] at hret
  obtain ⟨d', _, h⟩ := hret (by omega) (nullEntryAt_iff.2 hnull) fun i hi =>
    nullEntryAt_iff.not.2 (not_not_intro (hused i hi))
  rw [← firstNamed_slots (by omega) hused hnames hname (by decide),
    ← takeWhile_slots hk hnull hused, hp.first] at h
  obtain ⟨_, _, hfind⟩ := findPartitionByName_returns_iff hl stack (PagingState.boot m).mem name
  refine ⟨_, Virtual.loop_ok_of_loop ((hfind _).1 h).2 fun a ha => ?_⟩
  -- All entries up to the unused one are in the buffer.
  obtain ⟨i, hi, rfl⟩ := List.mem_map.1 ha
  rw [List.mem_range] at hi
  omega

theorem MemoryReady.bounds (hm : MemoryReady m name path rs base) :
    0x100000 ≤ base ∧ base + 268435456 ≤ 511 * 2 ^ 30 := by
  have hn := numGigs_eq (show (freeMemory rs).toNat < 2 ^ 63 by have := hm.total_le; omega)
  have htotal := hm.total_le
  have hmapped := hm.mapped
  have hgigs : numGigs (freeMemory rs).toNat ≤ 511 := by omega
  obtain ⟨r, hr, rfl⟩ := hm.space
  have habove : 0x100000 ≤ r.baseAddress.toNat := UInt64.le_iff_toNat_le.1 (firstFit_spec hr).2.1
  exact ⟨habove, hmapped.trans (Nat.mul_le_mul_right _ hgigs)⟩

theorem MemoryReady.mappable (hm : MemoryReady m name path rs base) : Mappable rs := by
  have hn := numGigs_eq (show (freeMemory rs).toNat < 2 ^ 63 by have := hm.total_le; omega)
  have hmapped := hm.mapped
  exact ⟨by omega, hm.total_le⟩

theorem MemoryReady.layout (hm : MemoryReady m name path rs base) : BootLayout m path rs rs := by
  have htotal := hm.total_le
  refine bootLayout_boot hm.regions hm.length_le hm.path.1 hm.path.2 (by omega) fun r hr => ?_
  obtain ⟨r', hr', rfl⟩ := hm.space
  obtain rfl := Option.some.inj (hr'.symm.trans hr)
  have := hm.bounds
  omega

/-- The file is loaded whole, above the cleared buffer. -/
theorem fileLoaded_storeSectors (hbase : 0x100000 ≤ base) (m m₁ : Memory) (disk : ℕ → Memory)
    (lba len : ℕ) : FileLoaded (Memory.splice m 0x100000 (storeSectors
      (m₁.fill base 268435456 0) (base + codeBufferSize) disk lba ((len + 511) / 512)))
      (bytesFrom disk lba) base len := by
  refine ⟨fun x h₁ h₂ => ?_, fun y hy => ?_⟩
  · rw [codeBufferSize] at h₂ ⊢
    rw [Memory.splice_of_le (by omega), storeSectors_of_not_mem (by omega),
      Memory.fill_of_mem (by omega) (by omega)]
  · rw [Memory.splice_of_le (by omega), storeSectors_of_lt (by omega)]
    rfl

/-- After a file with the signature has been loaded, which the loader gets through, the kernel is
    entered. -/
theorem enterKernel_returns {δ : Type} {io : Ports δ} {d d' : δ} {cleared loaded : Memory} {it : ℕ}
    {bytesLoaded : UInt64} (hbase : base + 268435456 < 2 ^ 47)
    (hload : (ustarLoadFile io d cleared gpte path (base + codeBufferSize)).Returns
      ((d', loaded), bytesLoaded)) (hbytes : bytesLoaded ≠ 0)
    (hsig : HasElfSignature loaded (base + codeBufferSize))
    (hmap : Virtual.mapKernel ⟨loaded, it⟩ (0xFFFF800000000000 + (base + codeBufferSize))
      (0xFFFF800000000000 + base) 0 =
        .ok (mapKernel bootMachine ⟨loaded, it⟩ (0xFFFF800000000000 + (base + codeBufferSize))
          (0xFFFF800000000000 + base) 0)) :
    ∃ log, (enterKernel io d ⟨cleared, it⟩ gpte path (0xFFFF800000000000 + base)).Returns
        (d', log, some (mappedKernel ⟨loaded, it⟩ base)) ∧
      .kernelEntered (mappedKernel ⟨loaded, it⟩ base).entryPoint ∈ log := by
  rw [codeBufferSize] at hload hsig hmap
  have hcases := enterKernel_cases ⟨cleared, it⟩ hbase hload
  simp only at hcases
  rcases hcases with ⟨_, _, _, hnot⟩ | ⟨_, _, mapped, hmapped, hret⟩
  · exact absurd ⟨_, hmap⟩ ((hnot.resolve_left hbytes).resolve_left (not_not_intro hsig))
  · obtain rfl := Except.ok.inj (hmap.symm.trans hmapped)
    refine ⟨_, hret, ?_⟩
    rw [mappedKernel, kernelEntryOf_entryPoint, codeBufferSize]
    simp

/-- From the memory for the kernel on. -/
theorem loadKernel_enters (hl : d.Live) (hm : MemoryReady m name path rs base)
    (ha : ArchiveReady d.disk gpte es e) (hk : KernelReady (kernelFile d.disk gpte es) e.size) :
    ∃ d' log k, (loadKernel ports d (setupPhysicalMap (.boot m) (freeMemory rs).toNat) gpte path
        (0xFFFF800000000000 + base)).Returns (d', log, some k) ∧
      .kernelEntered k.entryPoint ∈ log ∧ Entered (kernelFile d.disk gpte es) rs base k := by
  obtain ⟨hbase, hend⟩ := hm.bounds
  obtain ⟨hpos, hsize⟩ := ha.size
  obtain ⟨r, hr, hrbase⟩ := hm.space
  obtain ⟨hpath, hset⟩ := clear_cases hm.layout hm.mappable hr
  rw [hrbase] at hpath hset
  obtain ⟨_, hset⟩ := hset.resolve_right fun h => h.1 hm.mapped
  obtain ⟨d', _, hload⟩ := ustarLoadFile_lookup hl ha.stored ha.fits hpath ha.passed ha.kernel
    (base + codeBufferSize)
  have hsectors : (e.size + 511) % 2 ^ 32 / 512 % 256 = (e.size + 511) / 512 := by omega
  rw [hsectors, Nat.mod_eq_of_lt (show e.size < 2 ^ 32 by omega)] at hload
  have hloaded := fileLoaded_storeSectors hbase m
    (setupPhysicalMap (.boot m) (freeMemory rs).toNat).mem d.disk
    (gpte.startingLba.toNat + sectors (entriesBefore es kernelPath) + 1) e.size
  generalize hmem : storeSectors ((setupPhysicalMap (.boot m) (freeMemory rs).toNat).mem.fill base
    268435456 0) (base + codeBufferSize) d.disk
    (gpte.startingLba.toNat + sectors (entriesBefore es kernelPath) + 1)
    ((e.size + 511) / 512) = loaded at hload hloaded
  have hstate := setupPhysicalMap_of_above (show 0x21000 ≤ 0x100000 by decide) m loaded
    (freeMemory rs).toNat fun x hx => by
      rw [← hmem, storeSectors_of_not_mem (by omega), Memory.fill_of_not_mem (by omega)]
  have hbytes : UInt64.ofNat e.size ≠ 0 := fun h => by
    have := congrArg UInt64.toNat h
    rw [UInt64.toNat_ofNat_of_lt' (show e.size < 2 ^ 64 by omega)] at this
    exact absurd this (Nat.ne_of_gt hpos)
  have hsig : HasElfSignature loaded (base + codeBufferSize) := fun i hi => by
    have hbyte := hk.signature i hi
    rw [Nat.zero_add] at hbyte
    rw [← hmem, storeSectors_of_lt (by omega)]
    exact hbyte
  have hmapped := mapKernel_ok_file hm hk hsize hloaded
  have hentered := entered_mappedKernel hm hk hsize hloaded fun x hx => by
    rw [Memory.splice_of_lt (by omega)]
  rw [← hstate] at hmapped hentered
  obtain ⟨log, hreturns, hlog⟩ := enterKernel_returns (by omega) hload hbytes hsig hmapped
  exact ⟨d', _, _, (loadKernel_mapped hset (by omega)).2 ⟨log, hreturns, rfl⟩,
    List.mem_cons_of_mem _ hlog, hentered⟩

/-- The searches before end with the root partition. -/
theorem MemoryReady.searchesEnd (hl : d.Live) (hm : MemoryReady m name path rs base)
    (hp : PartitionReady d.disk n gpte) (ha : ArchiveReady d.disk gpte es e) (stack : Memory)
    (hbuffer : buffer + 4096 ≤ 2 ^ 21) :
    ∃ inspected, SearchesEnd d.disk stack m buffer name rs gpte inspected := by
  obtain ⟨hname, hname₀⟩ := hm.name
  have hname : CString (PagingState.boot m).mem name rootPartitionName :=
    hname.congr fun x hx _ => setupAndEnablePaging_of_not_mem (.inr (by omega))
  obtain ⟨inspected, hsearch⟩ := hp.searchEnds hl stack hname hbuffer
  -- The walk for the size passes the same entries.
  have hpass : ∀ e' ∈ entriesBefore es kernelPath, Passes numSectorsU64 e' := fun e' he' =>
    passes_u64 ((ha.passed e' he').imp_right fun h => h.1)
  obtain ⟨_, _, hwalk⟩ := walkHeaders_lookup hl ha.stored ha.fits hm.layout.kernel hpass
  rw [ha.kernel] at hwalk
  obtain ⟨_, _, _, _, hwalk⟩ := hwalk
  exact ⟨inspected, hsearch, hm.mappable, _, stopsAt_of_walkHeaders hl hm.layout.kernel hwalk⟩

/-- The steps before the loading of the kernel leave the disk as it is. -/
theorem cbootMain_of_loadKernel (hl : d.Live) (hm : MemoryReady m name path rs base)
    (hp : PartitionReady d.disk n gpte) (ha : ArchiveReady d.disk gpte es e) (stack : Memory)
    (hbuffer : buffer + 4096 ≤ 2 ^ 21) :
    ∃ d' : AtaDevice, d'.Live ∧ d'.disk = d.disk ∧ ∃ inspected, ∀ d'' log entered,
      (loadKernel ports d' (setupPhysicalMap (.boot m) (freeMemory rs).toNat) gpte path
        (0xFFFF800000000000 + base)).Returns (d'', log, entered) →
      (cbootMain ports d (.boot m) stack buffer name path).Returns (d'',
        .partitionSearched gpte inspected :: .spaceAllocated (0xFFFF800000000000 + base) :: log,
        entered) := by
  obtain ⟨inspected, hsearch⟩ := hm.searchesEnd hl hp ha stack hbuffer
  obtain ⟨d', hl', hdisk, hmain⟩ := cbootMain_returns_iff hl hm.layout hsearch
  have hkaddr : allocated (firstFit rs 268435456) = 0xFFFF800000000000 + base := by
    obtain ⟨r, hr, rfl⟩ := hm.space
    exact (allocated_firstFit hm.layout hr).1
  rw [hkaddr] at hmain
  exact ⟨d', hl', hdisk, inspected, fun d'' log entered h =>
    (hmain (d'', _, entered)).2 ⟨log, h, rfl⟩⟩

/-- Whatever else is on the disk and in memory: with the kernel in the archive of the root
    partition, and memory for it, the sequence enters the kernel, and the kernel finds the first
    pages of its segments in the window. -/
theorem cbootMain_enters (hl : d.Live) (hm : MemoryReady m name path rs base)
    (hp : PartitionReady d.disk n gpte) (ha : ArchiveReady d.disk gpte es e)
    (hk : KernelReady (kernelFile d.disk gpte es) e.size) (stack : Memory)
    (hbuffer : buffer + 4096 ≤ 2 ^ 21) :
    ∃ d' log k, (cbootMain ports d (.boot m) stack buffer name path).Returns (d', log, some k) ∧
      .kernelEntered k.entryPoint ∈ log ∧ Entered (kernelFile d.disk gpte es) rs base k := by
  obtain ⟨d', hl', hdisk, _, hmain⟩ := cbootMain_of_loadKernel hl hm hp ha stack hbuffer
  rw [← hdisk] at ha hk
  obtain ⟨d'', log, k, hreturns, hlog, hentered⟩ := loadKernel_enters hl' hm ha hk
  rw [hdisk] at hentered
  exact ⟨d'', _, k, hmain _ _ _ hreturns, List.mem_cons_of_mem _ (List.mem_cons_of_mem _ hlog),
    hentered⟩

end boot

/-! ## One machine -/

section one

/-- Bytes that differ from zero, by their addresses. -/
def sparse (bytes : List (ℕ × UInt8)) : Memory := fun x => (bytes.lookup x).getD 0

/-- A kernel of one byte and zeros, at the beginning of its window. -/
def oneKernel : Memory := sparse [(0, 0x7F), (1, 0x45), (2, 0x4C), (3, 0x46),
  -- the file header
  (29, 0x90), (30, 0xFF), (31, 0xFF), (32, 64), (54, 56), (56, 1),
  -- the program header
  (64, 1), (73, 0x10), (85, 0x90), (86, 0xFF), (87, 0xFF), (96, 1), (104, 0x10), (113, 0x10),
  -- the segment
  (0x1000, 0xF4)]

/-- The entry of the kernel in the archive. -/
def kernelEntry : Entry where
  namePrefix := []
  name := kernelPath.tail
  type := 0x30
  size := 0x1001
  namePrefix_length := oneFile.namePrefix_length
  name_length := by decide
  ne_zero := by simp [kernelPath]
  size_lt := by decide

/-- A disk with the bootloader from the sector 2048 on, of which there are only its two strings,
    and the root partition from the sector 4096 on, with the kernel in it. -/
def kernelDisk : ℕ → Memory := fun lba =>
  if lba = 1 then sparse [(84, 128)]
  else if lba = 2 then fun x =>
    if 56 ≤ x ∧ x < 96 ∧ x % 2 = 0 then rootPartitionName.getD ((x - 56) / 2) 0
    else sparse [(0, 1), (33, 16)] x
  else if lba = 2048 then Memory.store (Memory.store (fun _ => 0) 0 kernelPath) 64 rootPartitionName
  else if lba = 4096 then headerSector kernelEntry
  else if 4097 ≤ lba then fun x => oneKernel (512 * (lba - 4097) + x)
  else fun _ => 0

/-- The entry of the partition. -/
def kernelPartition : GPTEntry := readGPTEntry (entryArray kernelDisk) 0

theorem startingLba_kernelPartition : kernelPartition.startingLba.toNat = 4096 := by decide

theorem partitionReady_kernelDisk : PartitionReady kernelDisk 2 kernelPartition := by
  have hslots : slots kernelDisk 2 =
      [kernelPartition, readGPTEntry (entryArray kernelDisk) 128] := rfl
  have hused : kernelPartition.Used := by decide
  have hunused : ¬(readGPTEntry (entryArray kernelDisk) 128).Used := by decide
  have hname : kernelPartition.name = rootPartitionName.map (·.toUInt16) := by decide +kernel
  refine ⟨by decide, by decide, ?_, ?_, ?_⟩
  · rw [hslots]
    exact ⟨_, List.mem_cons_of_mem _ List.mem_cons_self, hunused⟩
  · intro e he hu
    rw [hslots, List.mem_cons, List.mem_singleton] at he
    rcases he with rfl | rfl
    · rw [GPTEntry.HasAsciiName, hname]
      refine ⟨by decide, ?_⟩
      simp [rootPartitionName]
    · exact absurd hu hunused
  · have htake : (slots kernelDisk 2).takeWhile (·.Used) = [kernelPartition] := by
      simp [hslots, hused, hunused]
    rw [htake]
    simp [firstNamed, hused, hname]

theorem archiveReady_kernelDisk :
    ArchiveReady kernelDisk kernelPartition [kernelEntry] kernelEntry := by
  refine ⟨?_, ?_, fun e he => absurd he List.not_mem_nil, rfl, by decide⟩
  · rw [startingLba_kernelPartition]
    refine ⟨isHeader_headerSector kernelEntry, fun h => ?_⟩
    -- After the nine sectors of the file there are zeros.
    have hsector : 4096 + 1 + kernelEntry.dataSectors = 4106 := by decide
    rw [hsector] at h
    exact absurd (h 0 (by decide)) (by decide)
  · rw [startingLba_kernelPartition]
    decide

theorem kernelFile_kernelDisk :
    kernelFile kernelDisk kernelPartition [kernelEntry] = oneKernel := by
  funext y
  rw [kernelFile, startingLba_kernelPartition, bytesFrom]
  change kernelDisk (4097 + y / 512) (y % 512) = oneKernel y
  rw [kernelDisk, if_neg (by omega), if_neg (by omega), if_neg (by omega), if_neg (by omega),
    if_pos (by omega), Nat.add_sub_cancel_left, Nat.div_add_mod]

/-- The one segment of the kernel. -/
theorem imageSegments_oneKernel :
    imageSegments oneKernel 0 = [⟨1, 0x1000, 0xFFFF900000000000, 1, 0x10, 0x1000⟩] := by
  decide +kernel

theorem kernelReady_oneKernel : KernelReady oneKernel 0x1001 := by
  have hsignature : ∀ i < 4, oneKernel (0 + i) = literal elfSignature i := by decide
  refine ⟨hsignature, ⟨by decide, by decide +kernel, by decide⟩, fun h hh => ?_, ?_⟩
  · rw [imageSegments_oneKernel, List.mem_singleton] at hh
    subst hh
    exact ⟨rfl, ⟨by decide, by decide⟩, .inr (by decide), by decide, by decide⟩
  · rw [card_imagePaths imageSegments_oneKernel]
    decide

/-- A memory with one gigabyte above 1 MB, and the names in the program. -/
def readyMemory : Memory :=
  writeRegion (Memory.store (Memory.store (fun _ => 0) 0x8000 kernelPath) 0x9000
    rootPartitionName) biosMemoryMapLocation ⟨0x100000, 0x40000000, 1, 0⟩

theorem memoryReady_readyMemory :
    MemoryReady readyMemory 0x9000 0x8000 [⟨0x100000, 0x40000000, 1, 0⟩] 0x100000 := by
  have habove : ∀ x, 0x1000 ≤ x → readyMemory x = Memory.store (Memory.store (fun _ => 0) 0x8000
      kernelPath) 0x9000 rootPartitionName x := fun x hx =>
    writeRegion_of_not_mem (.inr (by rw [biosMemoryMapLocation]; omega))
  refine ⟨⟨readRegion_writeRegion _ _ _, by decide, ?_⟩, by decide, ⟨?_, by decide⟩,
    ⟨?_, by decide, by decide⟩, by decide, ⟨_, rfl, rfl⟩, rfl, by decide⟩
  · refine congrArg UInt32.ofNat (Memory.read_eq_zero fun i hi => ?_)
    rw [readyMemory, writeRegion_of_not_mem (.inr (by omega)), Memory.store_of_lt,
      Memory.store_of_lt]
    · rw [biosMemoryMapLocation]
      omega
    · rw [biosMemoryMapLocation]
      omega
  · exact (cString_store (by simp [rootPartitionName]) rfl).congr fun x hx _ => habove x (by omega)
  · refine (cString_store (p := 0x8000) (s := kernelPath) (d := fun _ => 0) (by simp [kernelPath])
      rfl).congr fun x hx hlt => ?_
    have hlen : kernelPath.length = 15 := rfl
    rw [habove x (by omega), Memory.store_of_lt (by omega)]

theorem cbootMain_enters_one :
    ∃ d' log k, (cbootMain ports (driveOf kernelDisk) (.boot readyMemory) (fun _ => 0) 0x6E000
        0x9000 0x8000).Returns (d', log, some k) ∧
      .kernelEntered k.entryPoint ∈ log ∧
      Entered (kernelFile kernelDisk kernelPartition [kernelEntry])
        [⟨0x100000, 0x40000000, 1, 0⟩] 0x100000 k := by
  have hk := kernelReady_oneKernel
  rw [← kernelFile_kernelDisk] at hk
  exact cbootMain_enters (live_driveOf _) memoryReady_readyMemory partitionReady_kernelDisk
    archiveReady_kernelDisk hk _ (by decide)

end one

end Cboot
