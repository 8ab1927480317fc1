import Cboot.Kernel.Image
import Cboot.Paging.Virtual

/-!
# The loader through the page tables

`map_kernel` as the processor runs it: every pointer goes through the page tables, which the loader
itself adds to, and it stops at the first address that they do not translate.

* `Virtual.mapKernel`: the loader, for any file;
* `Faultless`: where each of its loads and calls succeeds, it is the loader of the machine without
  page tables in between (`Faultless.mapKernel`);
* `ImageLayout.mapKernel_ok`: so it is for a kernel in order, in the map of physical memory.
-/

namespace Cboot

namespace Virtual

/-- The field of `n` bytes at the distance `k` from `p`. -/
def loadField (m : Memory) (n p k : ℕ) : Except ℕ ℕ := load m n ((p + k) % 2 ^ 64)

/-- A field of two bytes. -/
def loadField16 (m : Memory) (p k : ℕ) : Except ℕ UInt16 := do
  let w ← loadField m 2 p k
  pure (.ofNat w)

/-- What is read of a program header to print it. -/
def loadProgramHeader (m : Memory) (p : ℕ) : Except ℕ ELF64ProgramHeader := do
  let offset ← loadField m 8 p 8
  let vaddr ← loadField m 8 p 16
  let _paddr ← loadField m 8 p 24
  let filesz ← loadField m 8 p 32
  let memsz ← loadField m 8 p 40
  let align ← loadField m 8 p 48
  pure { type := 1, offset, vaddr, filesz, memsz, align }

/-- The pages of the segment of the header at `phdrIt`, the first `i` of them. -/
def mapPages (codeBuffer phdrIt : ℕ) (st : PagingState) : (i : ℕ) → Except ℕ PagingState
  | 0 => .ok st
  | i + 1 => do
    let st ← mapPages codeBuffer phdrIt st i
    let vaddr ← loadField st.mem 8 phdrIt 16
    let offset ← loadField st.mem 8 phdrIt 8
    let align ← loadField st.mem 8 phdrIt 48
    let data := (codeBuffer + offset + (2 ^ 64 - align)) % 2 ^ 64
    map4kbPage st ((vaddr + 0x1000 * i) % 2 ^ 64) (data &&& 0x00001FFFFFFFF000)

/-- One round of the loop over the program headers, with the size of the kernel so far. -/
def loadHeader (elfFile codeBuffer phdrIt : ℕ) (st : PagingState) (kernelSize : ℕ) :
    Except ℕ (PagingState × ℕ) := do
  let type ← load st.mem 4 phdrIt
  if type = 1 then
    let elfPhdr ← loadProgramHeader st.mem phdrIt
    let mem ← memcpy st.mem (segmentData codeBuffer elfPhdr)
      ((elfFile + elfPhdr.offset) % 2 ^ 64) elfPhdr.filesz
    let memsz ← loadField mem 8 phdrIt 40
    let st ← mapPages codeBuffer phdrIt { st with mem := mem } (alignUp4kb memsz / 0x1000)
    let memsz ← loadField st.mem 8 phdrIt 40
    pure (st, (kernelSize + memsz) % 2 ^ 64)
  else pure (st, kernelSize)

/-- The loop over the program headers. -/
def loadHeaders (elfFile codeBuffer phdrCounter phdrIt : ℕ) (st : PagingState) (kernelSize : ℕ) :
    Except ℕ (PagingState × ℕ) := do
  let (st, kernelSize) ← loadHeader elfFile codeBuffer phdrIt st kernelSize
  let entrySize ← loadField16 st.mem elfFile 54
  let entryCount ← loadField16 st.mem elfFile 56
  if phdrCounter + 1 < entryCount.toNat then
    loadHeaders elfFile codeBuffer (phdrCounter + 1) ((phdrIt + entrySize.toNat) % 2 ^ 64) st
      kernelSize
  else pure (st, kernelSize)
termination_by 65536 - phdrCounter
decreasing_by
  have := entryCount.toNat_lt
  omega

/-- The state after loading, the entry point and the size of the kernel. -/
def mapKernel (st : PagingState) (elfFile codeBuffer kernelSize : ℕ) :
    Except ℕ (PagingState × ℕ × ℕ) := do
  let position ← loadField st.mem 8 elfFile 32
  let (st, kernelSize) ← loadHeaders elfFile codeBuffer 0 ((elfFile + position) % 2 ^ 64) st
    kernelSize
  let entryPoint ← loadField st.mem 8 elfFile 24
  pure (st, entryPoint, kernelSize)

end Virtual

/-! ## Where nothing faults -/

section faultless

variable {elfFile codeBuffer len : ℕ} {m : Memory} {I : PagingState → Prop}
  {Bad : ELF64ProgramHeader → Prop} {st : PagingState} {kernelSize i n k : ℕ}

/-- With the invariant `I`, the loader can read the file of `len` bytes, and each of its calls does
    what the machine's does. -/
structure Faultless (elfFile codeBuffer len : ℕ) (m : Memory) (I : PagingState → Prop) : Prop where
  load : ∀ {st n y}, I st → y + n ≤ len →
    Virtual.load st.mem n (elfFile + y) = .ok ((bootMachine.mem st).read n (elfFile + y))
  copy : ∀ {st h}, I st → h ∈ segments m elfFile →
    Virtual.memcpy st.mem (segmentData codeBuffer h) ((elfFile + h.offset) % 2 ^ 64) h.filesz =
      .ok (copySegment bootMachine elfFile codeBuffer st h).mem
  map : ∀ {st h i}, I st → h ∈ segments m elfFile → i < numPages h →
    Virtual.map4kbPage st (pageVaddr h i) (segmentFrame codeBuffer h) =
      .ok (mapSegmentPage bootMachine codeBuffer h st i)

namespace Faultless

theorem loadField (hF : Faultless elfFile codeBuffer len m I) (hf : ElfFile m elfFile len)
    (hs : I st) {y : ℕ} (hlt : y + k + n ≤ len) :
    Virtual.loadField st.mem n (elfFile + y) k =
      .ok ((bootMachine.mem st).read n (elfFile + y + k)) := by
  have hw := hf.no_wrap
  rw [Virtual.loadField]
  cases n with
  | zero => rfl
  | succ n =>
    rw [Nat.mod_eq_of_lt (by omega), Nat.add_assoc]
    exact hF.load hs hlt

/-- A header of the table is in the file. -/
theorem headerAddr_eq (hf : ElfFile m elfFile len) (hi : i < numHeaders m elfFile) :
    ∃ y, y + 56 ≤ len ∧ headerAddr m elfFile i = elfFile + y := by
  have ht := hf.table i hi
  have hw := hf.no_wrap
  exact ⟨_, ht, by rw [headerAddr, Nat.mod_eq_of_lt (by omega), Nat.add_assoc]⟩

/-- The fields of a header of the table. -/
theorem loadField_header (hF : Faultless elfFile codeBuffer len m I) (hf : ElfFile m elfFile len)
    (hs : I st) (hi : i < numHeaders m elfFile) (hk : k + n ≤ 56) :
    Virtual.loadField st.mem n (headerAddr m elfFile i) k =
      .ok ((bootMachine.mem st).read n (headerAddr m elfFile i + k)) := by
  obtain ⟨y, hy, heq⟩ := headerAddr_eq hf hi
  rw [heq]
  exact hF.loadField hf hs (by omega)

theorem loadProgramHeader (hF : Faultless elfFile codeBuffer len m I) (hf : ElfFile m elfFile len)
    (hI : LoadInvariant bootMachine elfFile codeBuffer m I (fun _ => False) Bad)
    (hs : I st) (hi : i < numHeaders m elfFile) (ht : (programHeader m elfFile i).type = 1) :
    Virtual.loadProgramHeader st.mem (headerAddr m elfFile i) =
      .ok (programHeader m elfFile i) := by
  have hload := fun {n k} (hk : k + n ≤ 56) => hF.loadField_header hf hs hi hk
  have hheader := (hI.kept hs).program i hi
  rw [Virtual.loadProgramHeader, hload (by decide), hload (by decide), hload (by decide),
    hload (by decide), hload (by decide), hload (by decide)]
  rw [← ht, ← hheader]
  rfl

/-- The pages of a segment. -/
theorem mapPages (hF : Faultless elfFile codeBuffer len m I) (hf : ElfFile m elfFile len)
    (hI : LoadInvariant bootMachine elfFile codeBuffer m I (fun _ => False) Bad)
    (hs : I st) (hi : i < numHeaders m elfFile)
    (hh : programHeader m elfFile i ∈ segments m elfFile)
    (hn : n ≤ numPages (programHeader m elfFile i)) :
    Virtual.mapPages codeBuffer (headerAddr m elfFile i) st n =
      .ok (Cboot.mapPages bootMachine codeBuffer (headerAddr m elfFile i) st n) := by
  induction n with
  | zero => rfl
  | succ n ih =>
    obtain ⟨hsn, _⟩ := (hI.mapPages_cases hs hi hh (Nat.le_of_succ_le hn)).resolve_right
      fun h => h.1
    have hload := fun {n k} (hk : k + n ≤ 56) => hF.loadField_header hf hsn hi hk
    have hheader := (hI.kept hsn).program i hi
    have hmap := hF.map hsn hh hn
    rw [Virtual.mapPages, ih (Nat.le_of_succ_le hn), ok_bind, hload (by decide),
      hload (by decide), hload (by decide), Cboot.mapPages, hheader]
    rw [← hheader] at hmap
    rw [← hheader]
    exact hmap

/-- One round of the loop. -/
theorem loadHeader (hF : Faultless elfFile codeBuffer len m I) (hf : ElfFile m elfFile len)
    (hI : LoadInvariant bootMachine elfFile codeBuffer m I (fun _ => False) Bad)
    (hs : I st) (hi : i < numHeaders m elfFile) (kernelSize : ℕ) :
    Virtual.loadHeader elfFile codeBuffer (headerAddr m elfFile i) st kernelSize =
      .ok (Cboot.loadHeader bootMachine elfFile codeBuffer (headerAddr m elfFile i) st
        kernelSize) := by
  have hheader := (hI.kept hs).program i hi
  have hlt : headerAddr m elfFile i < 2 ^ 64 := Nat.mod_lt _ (by decide)
  have htype := hF.loadField_header hf hs hi (n := 4) (k := 0) (by decide)
  rw [Virtual.loadField, Nat.add_zero, Nat.mod_eq_of_lt hlt] at htype
  rw [Virtual.loadHeader, htype, ok_bind, Cboot.loadHeader, hheader,
    show (bootMachine.mem st).read 4 _ = _ from congrArg (·.type) hheader]
  split
  · rename_i ht
    have hh : programHeader m elfFile i ∈ segments m elfFile := mem_segments_iff.2 ⟨i, hi, rfl, ht⟩
    have hcopy := (hI.copy hs hh).resolve_right fun h => h.1
    have hcopied := (hI.kept hcopy).program i hi
    have hpages := ((hI.mapPages_cases hcopy hi hh le_rfl).resolve_right fun h => h.1).1
    -- The size is read again after the copy, and after the pages have been mapped.
    have hload₁ := hF.loadField_header hf hcopy hi (n := 8) (k := 40) (by decide)
    have hload₂ := hF.loadField_header hf hpages hi (n := 8) (k := 40) (by decide)
    have hmap := hF.mapPages hf hI hcopy hi hh le_rfl
    rw [hF.loadProgramHeader hf hI hs hi ht, ok_bind, hF.copy hs hh, ok_bind, hload₁, ok_bind,
      show (bootMachine.mem _).read 8 _ = _ from congrArg (·.memsz) hcopied]
    -- The state after the copy, as the loader has it.
    change (Virtual.mapPages codeBuffer (headerAddr m elfFile i)
      (copySegment bootMachine elfFile codeBuffer st (programHeader m elfFile i))
      (numPages (programHeader m elfFile i)) >>= _) = _
    rw [hmap, ok_bind, hload₂, ok_bind]
    rw [copySegment] at hcopied
    simp only [hcopied]
    rfl
  · rfl

/-- A field of the file header of two bytes. -/
theorem loadField16 (hF : Faultless elfFile codeBuffer len m I) (hf : ElfFile m elfFile len)
    (hs : I st) (hk : k + 2 ≤ 64) : ∃ w : UInt16, Virtual.loadField16 st.mem elfFile k = .ok w ∧
      w.toNat = (bootMachine.mem st).read 2 (elfFile + k) := by
  have hlen := hf.header
  have hload := hF.loadField hf hs (n := 2) (k := k) (y := 0) (by omega)
  rw [Nat.add_zero] at hload
  refine ⟨.ofNat ((bootMachine.mem st).read 2 (elfFile + k)), ?_, ?_⟩
  · rw [Virtual.loadField16, hload]
    rfl
  · exact UInt16.toNat_ofNat_of_lt' (Memory.read_lt _ 2 _)

/-- The loop, from the header `k` on. -/
theorem loadHeaders (hF : Faultless elfFile codeBuffer len m I) (hf : ElfFile m elfFile len)
    (hI : LoadInvariant bootMachine elfFile codeBuffer m I (fun _ => False) Bad)
    (hs : I st) (hk : k < numHeaders m elfFile) (kernelSize : ℕ) :
    Virtual.loadHeaders elfFile codeBuffer k (headerAddr m elfFile k) st kernelSize =
      .ok (Cboot.loadHeaders bootMachine elfFile codeBuffer k (headerAddr m elfFile k) st
        kernelSize) := by
  induction hn : numHeaders m elfFile - k generalizing k st kernelSize with
  | zero => omega
  | succ n ih =>
    have hround := hF.loadHeader hf hI hs hk kernelSize
    have hr := ((hI.loadHeader_cases hs hk kernelSize).resolve_right fun h => h.1).1
    rw [Virtual.loadHeaders, Cboot.loadHeaders, hround]
    generalize Cboot.loadHeader bootMachine elfFile codeBuffer (headerAddr m elfFile k) st
      kernelSize = r at hr ⊢
    obtain ⟨entrySize, hsize, heq₁⟩ := hF.loadField16 hf hr (k := 54) (by decide)
    obtain ⟨entryCount, hcount, heq₂⟩ := hF.loadField16 hf hr (k := 56) (by decide)
    have hfile := (hI.kept hr).file
    have hnext := LoadInvariant.headerAddr_succ m elfFile k
    rw [← hfile] at hnext
    have hle : (readFileHeader (bootMachine.mem r.1) elfFile).programHeaderTableEntryCount ≤
        numHeaders m elfFile := by
      rw [hfile]
      exact Nat.le_max_right ..
    rw [ok_bind]
    dsimp only
    rw [hsize, ok_bind, hcount, ok_bind, heq₁, heq₂]
    change (if k + 1 < (readFileHeader (bootMachine.mem r.1) elfFile).programHeaderTableEntryCount
      then Virtual.loadHeaders elfFile codeBuffer (k + 1) ((headerAddr m elfFile k +
        (readFileHeader (bootMachine.mem r.1) elfFile).programHeaderTableEntrySize) % 2 ^ 64)
        r.1 r.2 else _) = _
    rw [hnext]
    split
    · exact ih hr (by omega) _ (by omega)
    · rfl

/-- The loader does what it does without page tables in between. -/
theorem mapKernel (hF : Faultless elfFile codeBuffer len m I) (hf : ElfFile m elfFile len)
    (hI : LoadInvariant bootMachine elfFile codeBuffer m I (fun _ => False) Bad)
    (hs : I st) (kernelSize : ℕ) : Virtual.mapKernel st elfFile codeBuffer kernelSize =
      .ok (Cboot.mapKernel bootMachine st elfFile codeBuffer kernelSize) := by
  have hlen := hf.header
  have hfile := (hI.kept hs).file
  have hend := ((hI.mapKernel_cases hs kernelSize).resolve_right fun h => h.1).1
  have hload₁ := hF.loadField hf hs (n := 8) (k := 32) (y := 0) (by omega)
  have hload₂ := hF.loadField hf hend (n := 8) (k := 24) (y := 0) (by omega)
  have hloop := hF.loadHeaders hf hI hs (Nat.lt_of_lt_of_le Nat.one_pos (Nat.le_max_left ..))
    kernelSize
  have h₀ : (elfFile + (readFileHeader (bootMachine.mem st) elfFile).programHeaderTablePosition) %
      2 ^ 64 = headerAddr m elfFile 0 := by
    rw [hfile, headerAddr, Nat.zero_mul, Nat.add_zero]
  rw [Nat.add_zero] at hload₁ hload₂
  rw [Virtual.mapKernel, hload₁]
  change (Virtual.loadHeaders elfFile codeBuffer 0 ((elfFile +
    (readFileHeader (bootMachine.mem st) elfFile).programHeaderTablePosition) % 2 ^ 64) st
    kernelSize >>= _) = _
  rw [Cboot.mapKernel] at hend hload₂ ⊢
  simp only [h₀] at hend hload₂ ⊢
  rw [hloop]
  change (Virtual.loadField (Cboot.loadHeaders bootMachine elfFile codeBuffer 0
    (headerAddr m elfFile 0) st kernelSize).1.mem 8 elfFile 24 >>= _) = _
  rw [hload₂]
  rfl

end Faultless

end faultless

/-! ## The kernel in memory -/

section shows

variable {m m' : Memory} {total c size e len a : ℕ} {paths : Finset (List (Fin 512))}
  {st : PagingState} {k : KernelImage}

theorem IsPointer.canonical (htotal : total ≤ 511 * 2 ^ 30) (ha : IsPointer total a) :
    Canonical a := by
  have hn := numGigs_eq (show total < 2 ^ 63 by omega)
  rw [IsPointer] at ha
  rw [Canonical]
  omega

namespace Shows

/-- Pointers are translated to their low bits, whatever is stored above the tables. -/
theorem translate (h : Shows m total paths st k) (htotal : total ≤ 511 * 2 ^ 30)
    (hpaths : paths.card ≤ 78) (hkeep : ∀ x < 0x6F000, m' x = st.mem x) (ha : IsPointer total a) :
    Cboot.translate m' a = .ok (a % 2 ^ 47) := by
  have hit := h.it_le hpaths
  obtain ⟨own, ht⟩ := h.refines.tree
  have hwalk : pageWalk m' 0x1000 a = some ⟨a % 2 ^ 47, true⟩ := by
    rw [← h.pointer a ha, ← h.refines.walk a, pageWalk, pageWalk,
      ht.tables.walk_congr (fun x hx => hkeep x (by omega)) (length_indices a)]
  exact translate_of_walk (ha.canonical htotal) hwalk

/-- A byte of a block in the map of physical memory. -/
theorem translate_physical (h : Shows m total paths st k) (htotal : total ≤ 511 * 2 ^ 30)
    (hpaths : paths.card ≤ 78) (hkeep : ∀ x < 0x6F000, m' x = st.mem x)
    (ha : a < numGigs total * 2 ^ 30) :
    Cboot.translate m' (0xFFFF800000000000 + a) = .ok a := by
  have hn := numGigs_eq (show total < 2 ^ 63 by omega)
  have hmod : (0xFFFF800000000000 + a) % 2 ^ 47 = a := by omega
  rw [h.translate htotal hpaths hkeep (.inr ⟨Nat.le_add_right .., Nat.add_lt_add_left ha _⟩), hmod]

theorem lowMapped (h : Shows m total paths st k) (htotal : total ≤ 511 * 2 ^ 30)
    (hpaths : paths.card ≤ 78) : LowMapped st.mem := fun v hv => by
  rw [h.translate htotal hpaths (fun _ _ => rfl) (.inl hv), Nat.mod_eq_of_lt (by omega)]

end Shows

/-- While the segments are loaded, nothing faults. -/
theorem faultless_shows (hl : ImageLayout m total c size e len)
    (hs : ∀ h ∈ imageSegments m e, Loadable size len h) (hpaths : (imagePaths m e).card ≤ 78) :
    Faultless (0xFFFF800000000000 + e) (0xFFFF800000000000 + c) len (physicalView m)
      (fun st => ∃ k, Shows m total (imagePaths m e) st k ∧
        ∀ x, e ≤ x → x < e + len → k.mem x = m x) where
  load := by
    rintro st n y ⟨k, hst, -⟩ hlt
    have hfile := hl.file
    have hend := hl.lt
    have hread : (bootMachine.mem st).read n (0xFFFF800000000000 + e + y) =
        st.mem.read n (e + y) := by
      refine Memory.read_congr fun i hi => ?_
      have hmod : (0xFFFF800000000000 + e + y + i) % 2 ^ 47 = e + y + i := by omega
      simp only [bootMachine, physicalView, hmod]
    rw [hread]
    refine Virtual.load_ok (fun i hi => ?_) (by omega)
    rw [Nat.add_assoc, Nat.add_assoc, ← Nat.add_assoc e]
    exact hst.translate_physical hl.total_le hpaths (fun _ _ => rfl) (by omega)
  copy := by
    rintro st h ⟨k, hst, -⟩ hmem
    have hh := hs h hmem
    have hbuffer := hl.buffer
    have hfile := hl.file
    have hend := hl.lt
    have hdata := hh.data
    have hoffset := hh.offset
    have hdisjoint := hl.disjoint
    have hlen := hl.len_le
    have hdst : segmentData (0xFFFF800000000000 + c) h =
        0xFFFF800000000000 + (c + (h.offset - 0x1000)) := by
      rw [segmentData, hh.align]
      omega
    have hsrc : (0xFFFF800000000000 + e + h.offset) % 2 ^ 64 =
        0xFFFF800000000000 + (e + h.offset) := by omega
    -- The copy stays above the tables, however far it is.
    have hkeep : ∀ k, ∀ x < 0x6F000,
        st.mem.copy (c + (h.offset - 0x1000)) (e + h.offset) k x = st.mem x :=
      fun k x hx => Memory.copy_of_not_mem (by omega)
    have hblocks : MapsBlocks st.mem (segmentData (0xFFFF800000000000 + c) h)
        ((0xFFFF800000000000 + e + h.offset) % 2 ^ 64) (c + (h.offset - 0x1000)) (e + h.offset)
        h.filesz := by
      refine ⟨fun k hk i hi => ?_, fun k hk i hi => ?_, by omega, by omega, by omega⟩
      · rw [hdst, Nat.add_assoc]
        exact hst.translate_physical hl.total_le hpaths (hkeep k) (by omega)
      · rw [hsrc, Nat.add_assoc]
        exact hst.translate_physical hl.total_le hpaths (hkeep k) (by omega)
    rw [Virtual.memcpy_ok hblocks, copySegment]
    simp only [bootMachine, segmentData_physical hl hh, fileData_physical hl hh]
    rw [memcpy_eq_copy _ hblocks.apart]
  map := by
    rintro st h i ⟨k, hst, -⟩ hmem hi
    have hh := hs h hmem
    obtain ⟨own, ht⟩ := hst.refines.tree
    have hc : Call.map4kb (pageVaddr h i) (segmentFrame (0xFFFF800000000000 + c) h) ∈
        segmentCalls (0xFFFF800000000000 + c) h := List.mem_map.2 ⟨i, List.mem_range.2 hi, rfl⟩
    obtain ⟨_, _, h₀, h₁⟩ := l4Index_segmentCalls (sized_of_mem_segments hmem) hh.window hc
    have hnext := hst.mapSegmentPage hl hmem hh hpaths hi
    exact Virtual.map4kbPage_low ht.tables (hst.lowMapped hl.total_le hpaths)
      ((hst.small _ h₀ h₁).not_huge ht) ((hnext.it_le hpaths).trans (by decide))

/-- A kernel in order is loaded without a fault. -/
theorem ImageLayout.mapKernel_ok (hl : ImageLayout m total c size e len)
    (hs : ∀ h ∈ imageSegments m e, Loadable size len h) (hpaths : (imagePaths m e).card ≤ 78)
    (kernelSize : ℕ) :
    Virtual.mapKernel (setupPhysicalMap (.boot m) total) (0xFFFF800000000000 + e)
      (0xFFFF800000000000 + c) kernelSize =
      .ok (mapKernel bootMachine (setupPhysicalMap (.boot m) total) (0xFFFF800000000000 + e)
        (0xFFFF800000000000 + c) kernelSize) :=
  (faultless_shows hl hs hpaths).mapKernel hl.elf (loadInvariant_shows hl hs hpaths)
    ⟨_, Shows.start hl.total_le _, fun _ _ _ => rfl⟩ kernelSize

end shows

end Cboot
