import Cboot.Lib.Memory

/-!
# The kernel loader

`map_kernel` of `main.c`, for any machine that shows it a memory and carries out its calls
of `memcpy` and `map_4kb_page` (`Machine`). It goes through the program headers of an
ELF64 file: the data of every segment to load is copied to the code buffer, and the pages
of the segment are mapped to it.

* `mapKernel`: the loader. It reads the headers again and again from the memory, which the
  copies change;
* `HeadersKept`, `mapKernel_cases`: as long as the headers remain what they were, it
  loads one segment after the other, those of `segments`;
* `numPages_eq`, `segmentFrame_eq`: the number of pages of a segment, and their frame.

Pointers are 64-bit numbers.
-/

namespace Cboot

/-! ## Headers -/

/-- The fields of the file header that the loader uses. -/
structure ELF64FileHeader where
  entryPoint : ℕ
  programHeaderTablePosition : ℕ
  programHeaderTableEntrySize : ℕ
  programHeaderTableEntryCount : ℕ
  deriving DecidableEq, Repr

/-- The fields of a program header that the loader uses. -/
structure ELF64ProgramHeader where
  type : ℕ
  offset : ℕ
  vaddr : ℕ
  filesz : ℕ
  memsz : ℕ
  align : ℕ
  deriving DecidableEq, Repr

/-- The fields have the sizes that the record gives them. -/
def ELF64ProgramHeader.Sized (h : ELF64ProgramHeader) : Prop :=
  h.type < 2 ^ 32 ∧ h.offset < 2 ^ 64 ∧ h.vaddr < 2 ^ 64 ∧ h.filesz < 2 ^ 64 ∧
    h.memsz < 2 ^ 64 ∧ h.align < 2 ^ 64

instance (h : ELF64ProgramHeader) : Decidable h.Sized :=
  inferInstanceAs (Decidable (_ ∧ _))

/-- The file header stored at the address `p`. -/
def readFileHeader (m : Memory) (p : ℕ) : ELF64FileHeader where
  entryPoint := m.read 8 (p + 24)
  programHeaderTablePosition := m.read 8 (p + 32)
  programHeaderTableEntrySize := m.read 2 (p + 54)
  programHeaderTableEntryCount := m.read 2 (p + 56)

/-- The program header stored at the address `p`. -/
def readProgramHeader (m : Memory) (p : ℕ) : ELF64ProgramHeader where
  type := m.read 4 p
  offset := m.read 8 (p + 8)
  vaddr := m.read 8 (p + 16)
  filesz := m.read 8 (p + 32)
  memsz := m.read 8 (p + 40)
  align := m.read 8 (p + 48)

theorem sized_readProgramHeader (m : Memory) (p : ℕ) : (readProgramHeader m p).Sized :=
  ⟨m.read_lt 4 _, m.read_lt 8 _, m.read_lt 8 _, m.read_lt 8 _, m.read_lt 8 _, m.read_lt 8 _⟩

/-! ## The loader -/

/-- `ALIGN_UP_4KB` -/
def alignUp4kb (n : ℕ) : ℕ := (n + 0x1000 - n % 0x1000) % 2 ^ 64

/-- The number of pages mapped for a segment. -/
def numPages (elfPhdr : ELF64ProgramHeader) : ℕ := alignUp4kb elfPhdr.memsz / 0x1000

/-- Where the data of a segment goes. -/
def segmentData (codeBuffer : ℕ) (elfPhdr : ELF64ProgramHeader) : ℕ :=
  (codeBuffer + elfPhdr.offset + (2 ^ 64 - elfPhdr.align)) % 2 ^ 64

/-- The frame that the pages of a segment are mapped to: the mask applies to the whole
    expression. -/
def segmentFrame (codeBuffer : ℕ) (elfPhdr : ELF64ProgramHeader) : ℕ :=
  segmentData codeBuffer elfPhdr &&& 0x00001FFFFFFFF000

/-- The virtual address of a page of a segment. -/
def pageVaddr (elfPhdr : ELF64ProgramHeader) (i : ℕ) : ℕ :=
  (elfPhdr.vaddr + 0x1000 * i) % 2 ^ 64

/-- What the loader runs on: the memory that its pointers show, and the functions that it
    calls. -/
structure Machine (σ : Type*) where
  mem : σ → Memory
  memcpy : σ → (dst src size : ℕ) → σ
  map4kbPage : σ → (addr physicalAddress : ℕ) → σ

section loader

variable {σ : Type*} (M : Machine σ)

/-- The pages of the segment of the header at `phdrIt`, the first `i` of them. -/
def mapPages (codeBuffer phdrIt : ℕ) (s : σ) : (i : ℕ) → σ
  | 0 => s
  | i + 1 =>
    let s := mapPages codeBuffer phdrIt s i
    let elfPhdr := readProgramHeader (M.mem s) phdrIt
    M.map4kbPage s (pageVaddr elfPhdr i) (segmentFrame codeBuffer elfPhdr)

/-- One round of the loop over the program headers, with the size of the kernel so far. -/
def loadHeader (elfFile codeBuffer phdrIt : ℕ) (s : σ) (kernelSize : ℕ) : σ × ℕ :=
  let elfPhdr := readProgramHeader (M.mem s) phdrIt
  if elfPhdr.type = 1 then
    let s := M.memcpy s (segmentData codeBuffer elfPhdr) ((elfFile + elfPhdr.offset) % 2 ^ 64)
      elfPhdr.filesz
    let numPages := numPages (readProgramHeader (M.mem s) phdrIt)
    let s := mapPages M codeBuffer phdrIt s numPages
    (s, (kernelSize + (readProgramHeader (M.mem s) phdrIt).memsz) % 2 ^ 64)
  else (s, kernelSize)

theorem entryCount_lt (m : Memory) (p : ℕ) :
    (readFileHeader m p).programHeaderTableEntryCount < 65536 := Memory.read_lt m 2 _

/-- The loop over the program headers, from the one at `phdrIt` on. The condition comes
    after the round: the first header is always gone through. -/
def loadHeaders (elfFile codeBuffer phdrCounter phdrIt : ℕ) (s : σ) (kernelSize : ℕ) : σ × ℕ :=
  let r := loadHeader M elfFile codeBuffer phdrIt s kernelSize
  let elfHeader := readFileHeader (M.mem r.1) elfFile
  if phdrCounter + 1 < elfHeader.programHeaderTableEntryCount then
    loadHeaders elfFile codeBuffer (phdrCounter + 1)
      ((phdrIt + elfHeader.programHeaderTableEntrySize) % 2 ^ 64) r.1 r.2
  else r
termination_by 65536 - phdrCounter
decreasing_by
  have : elfHeader.programHeaderTableEntryCount < 65536 := entryCount_lt (M.mem r.1) elfFile
  omega

/-- The state after loading, the entry point and the size of the kernel. -/
def mapKernel (s : σ) (elfFile codeBuffer kernelSize : ℕ) : σ × ℕ × ℕ :=
  let elfHeader := readFileHeader (M.mem s) elfFile
  let phdrIt := (elfFile + elfHeader.programHeaderTablePosition) % 2 ^ 64
  let r := loadHeaders M elfFile codeBuffer 0 phdrIt s kernelSize
  (r.1, (readFileHeader (M.mem r.1) elfFile).entryPoint, r.2)

end loader

/-! ## The segments -/

/-- The address of the program header `i`. -/
def headerAddr (m : Memory) (elfFile i : ℕ) : ℕ :=
  (elfFile + (readFileHeader m elfFile).programHeaderTablePosition +
    i * (readFileHeader m elfFile).programHeaderTableEntrySize) % 2 ^ 64

/-- The program header `i`. -/
def programHeader (m : Memory) (elfFile i : ℕ) : ELF64ProgramHeader :=
  readProgramHeader m (headerAddr m elfFile i)

/-- The number of headers that the loop goes through. -/
def numHeaders (m : Memory) (elfFile : ℕ) : ℕ :=
  max 1 (readFileHeader m elfFile).programHeaderTableEntryCount

/-- The segments that are loaded, of the headers from the one numbered `k` on. -/
def segmentsFrom (m : Memory) (elfFile k : ℕ) : List ELF64ProgramHeader :=
  ((List.range' k (numHeaders m elfFile - k)).map (programHeader m elfFile)).filter (·.type = 1)

/-- The segments that are loaded. -/
def segments (m : Memory) (elfFile : ℕ) : List ELF64ProgramHeader := segmentsFrom m elfFile 0

/-- The headers of the file are, in the memory `m'`, what they are in `m`. -/
structure HeadersKept (m : Memory) (elfFile : ℕ) (m' : Memory) : Prop where
  file : readFileHeader m' elfFile = readFileHeader m elfFile
  program : ∀ i < numHeaders m elfFile,
    readProgramHeader m' (headerAddr m elfFile i) = programHeader m elfFile i

section segments

variable {σ : Type*} (M : Machine σ) (elfFile codeBuffer : ℕ)

/-- Copying the data of a segment. -/
def copySegment (s : σ) (elfPhdr : ELF64ProgramHeader) : σ :=
  M.memcpy s (segmentData codeBuffer elfPhdr) ((elfFile + elfPhdr.offset) % 2 ^ 64) elfPhdr.filesz

/-- Mapping the page `i` of a segment. -/
def mapSegmentPage (elfPhdr : ELF64ProgramHeader) (s : σ) (i : ℕ) : σ :=
  M.map4kbPage s (pageVaddr elfPhdr i) (segmentFrame codeBuffer elfPhdr)

/-- Loading a segment whose header does not change. -/
def loadSegment (s : σ) (elfPhdr : ELF64ProgramHeader) : σ :=
  (List.range (numPages elfPhdr)).foldl (mapSegmentPage M codeBuffer elfPhdr)
    (copySegment M elfFile codeBuffer s elfPhdr)

/-- What holds while the segments of the file in `m` are loaded: the invariant `I`, with which
    the headers are kept, until something happens from which there is no way back, `B`. Then
    there is a segment to blame. -/
structure LoadInvariant (m : Memory) (I B : σ → Prop) (Bad : ELF64ProgramHeader → Prop) :
    Prop where
  kept : ∀ {s}, I s → HeadersKept m elfFile (M.mem s)
  copy : ∀ {s h}, I s → h ∈ segments m elfFile →
    I (copySegment M elfFile codeBuffer s h) ∨ B (copySegment M elfFile codeBuffer s h) ∧ Bad h
  map : ∀ {s h i}, I s → h ∈ segments m elfFile → i < numPages h →
    I (mapSegmentPage M codeBuffer h s i) ∨ B (mapSegmentPage M codeBuffer h s i) ∧ Bad h
  memcpy_of_bad : ∀ {s} dst src size, B s → B (M.memcpy s dst src size)
  map4kbPage_of_bad : ∀ {s} va pa, B s → B (M.map4kbPage s va pa)

end segments

theorem segmentsFrom_of_le {m : Memory} {elfFile k : ℕ} (h : numHeaders m elfFile ≤ k) :
    segmentsFrom m elfFile k = [] := by
  rw [segmentsFrom, Nat.sub_eq_zero_of_le h]
  rfl

theorem segmentsFrom_of_lt {m : Memory} {elfFile k : ℕ} (h : k < numHeaders m elfFile) :
    segmentsFrom m elfFile k =
      if (programHeader m elfFile k).type = 1 then
        programHeader m elfFile k :: segmentsFrom m elfFile (k + 1)
      else segmentsFrom m elfFile (k + 1) := by
  obtain ⟨n, hn⟩ := Nat.exists_eq_add_of_lt h
  rw [segmentsFrom, segmentsFrom, show numHeaders m elfFile - k = n + 1 by omega,
    show numHeaders m elfFile - (k + 1) = n by omega, List.range'_succ, List.map_cons,
    List.filter_cons]
  simp only [decide_eq_true_eq]

theorem mem_segments_iff {m : Memory} {elfFile : ℕ} {h : ELF64ProgramHeader} :
    h ∈ segments m elfFile ↔
      ∃ i < numHeaders m elfFile, programHeader m elfFile i = h ∧ h.type = 1 := by
  rw [segments, segmentsFrom, List.mem_filter, List.mem_map, Nat.sub_zero]
  simp only [List.mem_range'_1, Nat.zero_le, true_and, Nat.zero_add, decide_eq_true_eq]
  constructor
  · rintro ⟨⟨i, hi, rfl⟩, ht⟩
    exact ⟨i, hi, rfl, ht⟩
  · rintro ⟨i, hi, rfl, ht⟩
    exact ⟨⟨i, hi, rfl⟩, ht⟩

/-- Where the headers are kept, so are the segments. -/
theorem HeadersKept.segments_eq {m m' : Memory} {elfFile : ℕ} (h : HeadersKept m elfFile m') :
    segments m' elfFile = segments m elfFile := by
  have hn : numHeaders m' elfFile = numHeaders m elfFile := by rw [numHeaders, h.file, numHeaders]
  rw [segments, segments, segmentsFrom, segmentsFrom, hn]
  refine congrArg (List.filter _) (List.map_congr_left fun i hi => ?_)
  have hi := (List.mem_range'_1.1 hi).2
  have haddr : headerAddr m' elfFile i = headerAddr m elfFile i := by
    rw [headerAddr, h.file, headerAddr]
  rw [programHeader, haddr]
  exact h.program i (by omega)

/-! ## Sizes and frames -/

section sizes

variable {m : Memory} {elfFile codeBuffer : ℕ} {h : ELF64ProgramHeader}

theorem alignUp4kb_div {n : ℕ} (hn : n < 2 ^ 64) :
    alignUp4kb n / 0x1000 = if n < 2 ^ 64 - 0x1000 then n / 0x1000 + 1 else 0 := by
  rw [alignUp4kb]
  split <;> omega

theorem sized_of_mem_segments (hh : h ∈ segments m elfFile) : h.Sized := by
  obtain ⟨i, _, rfl, _⟩ := mem_segments_iff.1 hh
  exact sized_readProgramHeader m _

/-- One page more than fits in the segment, but none if the size is rounded up to `2 ^ 64`. -/
theorem numPages_eq (hs : h.Sized) :
    numPages h = if h.memsz < 2 ^ 64 - 0x1000 then h.memsz / 0x1000 + 1 else 0 :=
  alignUp4kb_div hs.2.2.2.2.1

/-- Masking a bit-field in place. -/
theorem and_field (x lo w : ℕ) : x &&& (2 ^ w - 1) * 2 ^ lo = x / 2 ^ lo % 2 ^ w * 2 ^ lo := by
  refine Nat.eq_of_testBit_eq fun i => ?_
  rw [Nat.testBit_and, Nat.testBit_mul_two_pow, Nat.testBit_mul_two_pow, Nat.testBit_mod_two_pow,
    Nat.testBit_div_two_pow, Nat.testBit_two_pow_sub_one]
  by_cases h : lo ≤ i
  · simp [h, Bool.and_comm]
  · simp [h]

/-- The frame is a page, with the address of the data in its low 45 bits. -/
theorem segmentFrame_eq (codeBuffer : ℕ) (h : ELF64ProgramHeader) :
    segmentFrame codeBuffer h = segmentData codeBuffer h / 2 ^ 12 % 2 ^ 33 * 2 ^ 12 :=
  and_field _ 12 33

end sizes

/-! ## A file of one segment -/

/-- A memory holding a file with one program header. -/
def oneSegment (elfFile : ℕ) (h : ELF64ProgramHeader) : Memory :=
  let m := ((Memory.write (fun _ => 0) 8 (elfFile + 32) 64).write 2 (elfFile + 54) 56).write 2
    (elfFile + 56) 1
  let p := elfFile + 64
  let m := ((m.write 4 p h.type).write 8 (p + 8) h.offset).write 8 (p + 16) h.vaddr
  ((m.write 8 (p + 32) h.filesz).write 8 (p + 40) h.memsz).write 8 (p + 48) h.align

section oneSegment

variable {elfFile : ℕ} {h : ELF64ProgramHeader}

theorem readFileHeader_oneSegment (elfFile : ℕ) (h : ELF64ProgramHeader) :
    readFileHeader (oneSegment elfFile h) elfFile = ⟨0, 64, 56, 1⟩ := by
  have h₀ : ∀ n a, Memory.read (fun _ => 0) n a = 0 := fun n a => Memory.read_eq_zero fun _ _ => rfl
  simp (disch := omega) only [readFileHeader, oneSegment, Memory.read_write_of_disjoint,
    Memory.read_write, h₀]
  rfl

theorem readProgramHeader_oneSegment (hs : h.Sized) :
    readProgramHeader (oneSegment elfFile h) (elfFile + 64) = h := by
  obtain ⟨ht, ho, hv, hf, hm, ha⟩ := hs
  simp (disch := omega) only [readProgramHeader, oneSegment, Memory.read_write_of_disjoint,
    Memory.read_write, Nat.mod_eq_of_lt]

theorem numHeaders_oneSegment (elfFile : ℕ) (h : ELF64ProgramHeader) :
    numHeaders (oneSegment elfFile h) elfFile = 1 := by
  rw [numHeaders, readFileHeader_oneSegment]
  rfl

theorem programHeader_oneSegment (he : elfFile + 64 < 2 ^ 64) (hs : h.Sized) :
    programHeader (oneSegment elfFile h) elfFile 0 = h := by
  have haddr : headerAddr (oneSegment elfFile h) elfFile 0 = elfFile + 64 := by
    rw [headerAddr, readFileHeader_oneSegment, Nat.zero_mul, Nat.add_zero, Nat.mod_eq_of_lt he]
  rw [programHeader, haddr, readProgramHeader_oneSegment hs]

/-- The one segment of the file. -/
theorem segments_oneSegment (he : elfFile + 64 < 2 ^ 64) (hs : h.Sized) (ht : h.type = 1) :
    segments (oneSegment elfFile h) elfFile = [h] := by
  rw [segments, segmentsFrom_of_lt (by rw [numHeaders_oneSegment]; exact Nat.one_pos),
    programHeader_oneSegment he hs, if_pos ht,
    segmentsFrom_of_le (Nat.le_of_eq (numHeaders_oneSegment elfFile h))]

end oneSegment

/-! ## Loading -/

namespace LoadInvariant

variable {σ : Type*} {M : Machine σ} {elfFile codeBuffer : ℕ} {m : Memory} {I B : σ → Prop}
  {Bad : ELF64ProgramHeader → Prop} {s : σ} {phdrIt i n k : ℕ} {h : ELF64ProgramHeader}

theorem mapPages_of_bad (hI : LoadInvariant M elfFile codeBuffer m I B Bad) (hs : B s) (n : ℕ) :
    B (mapPages M codeBuffer phdrIt s n) := by
  induction n with
  | zero => exact hs
  | succ n ih => exact hI.map4kbPage_of_bad _ _ ih

theorem loadHeader_of_bad (hI : LoadInvariant M elfFile codeBuffer m I B Bad) (hs : B s)
    (kernelSize : ℕ) : B (loadHeader M elfFile codeBuffer phdrIt s kernelSize).1 := by
  rw [loadHeader]
  split
  · exact hI.mapPages_of_bad (hI.memcpy_of_bad _ _ _ hs) _
  · exact hs

theorem loadHeaders_of_bad (hI : LoadInvariant M elfFile codeBuffer m I B Bad) (hs : B s)
    (k kernelSize : ℕ) : B (loadHeaders M elfFile codeBuffer k phdrIt s kernelSize).1 := by
  fun_induction loadHeaders M elfFile codeBuffer k phdrIt s kernelSize with
  | case1 k phdrIt s kernelSize r elfHeader hlt ih => exact ih (hI.loadHeader_of_bad hs kernelSize)
  | case2 k phdrIt s kernelSize r elfHeader hlt => exact hI.loadHeader_of_bad hs kernelSize

/-- The pages of a segment whose header is kept. -/
theorem mapPages_cases (hI : LoadInvariant M elfFile codeBuffer m I B Bad) (hs : I s)
    (hi : i < numHeaders m elfFile) (hh : programHeader m elfFile i ∈ segments m elfFile)
    (hn : n ≤ numPages (programHeader m elfFile i)) :
    I (mapPages M codeBuffer (headerAddr m elfFile i) s n) ∧
        mapPages M codeBuffer (headerAddr m elfFile i) s n =
          (List.range n).foldl (mapSegmentPage M codeBuffer (programHeader m elfFile i)) s ∨
      B (mapPages M codeBuffer (headerAddr m elfFile i) s n) ∧
        Bad (programHeader m elfFile i) := by
  induction n with
  | zero => exact .inl ⟨hs, rfl⟩
  | succ n ih =>
    rw [mapPages]
    rcases ih (Nat.le_of_succ_le hn) with ⟨hsn, heq⟩ | ⟨hsn, hbad⟩
    · -- The header is read again, and is what it was.
      rw [(hI.kept hsn).program i hi, List.range_succ, List.foldl_append, ← heq]
      rcases hI.map hsn hh hn with h' | ⟨h', hbad⟩
      · exact .inl ⟨h', rfl⟩
      · exact .inr ⟨h', hbad⟩
    · exact .inr ⟨hI.map4kbPage_of_bad _ _ hsn, hbad⟩

/-- One round of the loop. -/
theorem loadHeader_cases (hI : LoadInvariant M elfFile codeBuffer m I B Bad) (hs : I s)
    (hi : i < numHeaders m elfFile) (kernelSize : ℕ) :
    I (loadHeader M elfFile codeBuffer (headerAddr m elfFile i) s kernelSize).1 ∧
        (loadHeader M elfFile codeBuffer (headerAddr m elfFile i) s kernelSize).1 =
          (if (programHeader m elfFile i).type = 1 then
            loadSegment M elfFile codeBuffer s (programHeader m elfFile i) else s) ∨
      B (loadHeader M elfFile codeBuffer (headerAddr m elfFile i) s kernelSize).1 ∧
        ∃ h ∈ segments m elfFile, Bad h := by
  rw [loadHeader, (hI.kept hs).program i hi]
  by_cases ht : (programHeader m elfFile i).type = 1
  · have hh : programHeader m elfFile i ∈ segments m elfFile := mem_segments_iff.2 ⟨i, hi, rfl, ht⟩
    rw [if_pos ht, if_pos ht]
    rcases hI.copy hs hh with hc | ⟨hc, hbad⟩
    · -- The header is read again for the pages, after the copy.
      have hcopy := (hI.kept hc).program i hi
      rw [copySegment] at hc hcopy
      simp only [hcopy]
      rcases hI.mapPages_cases hc hi hh le_rfl with ⟨hp, heq⟩ | ⟨hp, hbad⟩
      · exact .inl ⟨hp, heq⟩
      · exact .inr ⟨hp, _, hh, hbad⟩
    · exact .inr ⟨hI.mapPages_of_bad hc _, _, hh, hbad⟩
  · rw [if_neg ht, if_neg ht]
    exact .inl ⟨hs, rfl⟩

theorem headerAddr_succ (m : Memory) (elfFile i : ℕ) :
    (headerAddr m elfFile i + (readFileHeader m elfFile).programHeaderTableEntrySize) % 2 ^ 64 =
      headerAddr m elfFile (i + 1) := by
  rw [headerAddr, headerAddr, Nat.mod_add_mod, Nat.add_assoc, ← Nat.succ_mul]

/-- The loop, from the header `k` on. -/
theorem loadHeaders_cases (hI : LoadInvariant M elfFile codeBuffer m I B Bad) (hs : I s)
    (hk : k < numHeaders m elfFile) (kernelSize : ℕ) :
    I (loadHeaders M elfFile codeBuffer k (headerAddr m elfFile k) s kernelSize).1 ∧
        (loadHeaders M elfFile codeBuffer k (headerAddr m elfFile k) s kernelSize).1 =
          (segmentsFrom m elfFile k).foldl (loadSegment M elfFile codeBuffer) s ∨
      B (loadHeaders M elfFile codeBuffer k (headerAddr m elfFile k) s kernelSize).1 ∧
        ∃ h ∈ segments m elfFile, Bad h := by
  induction hn : numHeaders m elfFile - k generalizing k s kernelSize with
  | zero => omega
  | succ n ih =>
    rw [loadHeaders, segmentsFrom_of_lt hk]
    rcases hI.loadHeader_cases hs hk kernelSize with ⟨hr, heq⟩ | ⟨hr, hbad⟩
    · have hcount : (readFileHeader m elfFile).programHeaderTableEntryCount ≤
          numHeaders m elfFile := Nat.le_max_right ..
      -- What is left of the segments, after the round.
      have hfold : ((if (programHeader m elfFile k).type = 1 then
          programHeader m elfFile k :: segmentsFrom m elfFile (k + 1)
          else segmentsFrom m elfFile (k + 1)).foldl (loadSegment M elfFile codeBuffer) s) =
          (segmentsFrom m elfFile (k + 1)).foldl (loadSegment M elfFile codeBuffer)
            (loadHeader M elfFile codeBuffer (headerAddr m elfFile k) s kernelSize).1 := by
        rw [heq]
        split <;> rfl
      simp only [(hI.kept hr).file, headerAddr_succ, hfold]
      split
      · -- The counter has not reached the number of headers: one more round.
        exact ih hr (by omega) _ (by omega)
      · -- It has: there is no header left.
        rename_i hlt
        have hlast : numHeaders m elfFile ≤ k + 1 := by
          rw [numHeaders] at hk ⊢
          omega
        rw [segmentsFrom_of_le hlast]
        exact .inl ⟨hr, rfl⟩
    · -- The invariant is broken, and remains so in the rounds to come.
      refine .inr ⟨?_, hbad⟩
      split
      · exact hI.loadHeaders_of_bad hr _ _
      · exact hr

/-- The loader loads one segment after the other, unless the invariant is broken. -/
theorem mapKernel_cases (hI : LoadInvariant M elfFile codeBuffer m I B Bad) (hs : I s)
    (kernelSize : ℕ) :
    I (mapKernel M s elfFile codeBuffer kernelSize).1 ∧
        (mapKernel M s elfFile codeBuffer kernelSize).1 =
          (segments m elfFile).foldl (loadSegment M elfFile codeBuffer) s ∨
      B (mapKernel M s elfFile codeBuffer kernelSize).1 ∧ ∃ h ∈ segments m elfFile, Bad h := by
  have h₀ : (elfFile + (readFileHeader m elfFile).programHeaderTablePosition) % 2 ^ 64 =
      headerAddr m elfFile 0 := by rw [headerAddr, Nat.zero_mul, Nat.add_zero]
  rw [mapKernel, (hI.kept hs).file, h₀]
  exact hI.loadHeaders_cases hs (Nat.lt_of_lt_of_le Nat.one_pos (Nat.le_max_left ..)) kernelSize

end LoadInvariant

end Cboot
