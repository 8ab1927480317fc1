import Cboot.Kernel.Elf
import Cboot.Mem
import Cboot.Paging.Tables

/-!
# What the loader asks for

The loader on a machine that keeps a record of the copies it makes and of the calls of
`map_4kb_page` (`tracedMachine`), and whether these keep to the code buffer: the 160 MB
below the file, as `cboot_main` lays them out (`KernelLayout`).

* `trace_foldl`: the record of segments loaded one after the other;
* `staysInside_iff_fitsBuffer`: the copies and the frames are in the buffer if and only if
  this is where the offset and the alignment of every segment put them;
* `staysInside_iff`: for the segments of a file that is in order, this is to say that the
  alignment is at most the offset. A segment at the beginning of the file is placed below
  the buffer.
-/

namespace Cboot

/-! ## The record -/

/-- A call of `memcpy`. -/
structure Copy where
  dst : ℕ
  src : ℕ
  size : ℕ
  deriving DecidableEq, Repr

/-- The memory, and what has been asked for. -/
structure Trace where
  mem : Memory
  copies : List Copy
  calls : List Call

/-- The machine that keeps the record. The tables are not in its memory. -/
def tracedMachine : Machine Trace where
  mem t := t.mem
  memcpy t dst src size :=
    { t with mem := memcpy t.mem dst src size, copies := t.copies ++ [⟨dst, src, size⟩] }
  map4kbPage t addr physicalAddress :=
    { t with calls := t.calls ++ [.map4kb addr physicalAddress] }

/-- The record of `map_kernel`, for the file at `elfFile` in the memory `m`. -/
def kernelTrace (m : Memory) (elfFile codeBuffer : ℕ) : Trace :=
  (mapKernel tracedMachine ⟨m, [], []⟩ elfFile codeBuffer 0).1

/-- The copy of a segment. -/
def segmentCopy (elfFile codeBuffer : ℕ) (h : ELF64ProgramHeader) : Copy :=
  ⟨segmentData codeBuffer h, (elfFile + h.offset) % 2 ^ 64, h.filesz⟩

/-- The calls for the pages of a segment. -/
def segmentCalls (codeBuffer : ℕ) (h : ELF64ProgramHeader) : List Call :=
  (List.range (numPages h)).map fun i => .map4kb (pageVaddr h i) (segmentFrame codeBuffer h)

section trace

variable (elfFile codeBuffer : ℕ)

theorem trace_mapSegmentPages (h : ELF64ProgramHeader) (t : Trace) (n : ℕ) :
    (List.range n).foldl (mapSegmentPage tracedMachine codeBuffer h) t =
      { t with calls := t.calls ++ (List.range n).map fun i =>
        .map4kb (pageVaddr h i) (segmentFrame codeBuffer h) } := by
  induction n with
  | zero => simp
  | succ n ih =>
    rw [List.range_succ, List.foldl_append, ih, List.map_append, ← List.append_assoc]
    rfl

/-- The record grows by the copies and the calls of the segments. -/
theorem trace_foldl (hs : List ELF64ProgramHeader) (t : Trace) :
    (hs.foldl (loadSegment tracedMachine elfFile codeBuffer) t).copies =
        t.copies ++ hs.map (segmentCopy elfFile codeBuffer) ∧
      (hs.foldl (loadSegment tracedMachine elfFile codeBuffer) t).calls =
        t.calls ++ hs.flatMap (segmentCalls codeBuffer) := by
  induction hs generalizing t with
  | nil => simp
  | cons h hs ih =>
    have hload : loadSegment tracedMachine elfFile codeBuffer t h =
        ⟨(copySegment tracedMachine elfFile codeBuffer t h).mem,
          t.copies ++ [segmentCopy elfFile codeBuffer h],
          t.calls ++ segmentCalls codeBuffer h⟩ := by
      rw [loadSegment, trace_mapSegmentPages]
      rfl
    obtain ⟨h₁, h₂⟩ := ih (loadSegment tracedMachine elfFile codeBuffer t h)
    rw [List.foldl_cons, h₁, h₂, hload]
    simp

end trace

/-! ## The file in memory -/

/-- The bytes of a file of `len` bytes hold the headers that the loader goes through. -/
structure ElfFile (m : Memory) (elfFile len : ℕ) : Prop where
  header : 64 ≤ len
  table : ∀ i < numHeaders m elfFile, (readFileHeader m elfFile).programHeaderTablePosition +
    i * (readFileHeader m elfFile).programHeaderTableEntrySize + 56 ≤ len
  no_wrap : elfFile + len ≤ 2 ^ 64

/-- The byte at `x` is one of the headers that the loop goes through. -/
def IsHeaderByte (m : Memory) (elfFile x : ℕ) : Prop :=
  elfFile ≤ x ∧ x < elfFile + 64 ∨
    ∃ i < numHeaders m elfFile, headerAddr m elfFile i ≤ x ∧ x < headerAddr m elfFile i + 56

/-- The headers only depend on their bytes. -/
theorem headersKept_of_bytes {m m' : Memory} {elfFile : ℕ}
    (h : ∀ x, IsHeaderByte m elfFile x → m' x = m x) : HeadersKept m elfFile m' := by
  refine ⟨?_, fun i hi => ?_⟩
  · have hread : ∀ {n a}, elfFile ≤ a → a + n ≤ elfFile + 64 → m'.read n a = m.read n a :=
      fun ha hn => Memory.read_congr fun i hi => h _ (.inl ⟨by omega, by omega⟩)
    rw [readFileHeader, hread (by omega) (by omega), hread (by omega) (by omega),
      hread (by omega) (by omega), hread (by omega) (by omega)]
    rfl
  · have hread : ∀ {n a}, headerAddr m elfFile i ≤ a → a + n ≤ headerAddr m elfFile i + 56 →
        m'.read n a = m.read n a :=
      fun ha hn => Memory.read_congr fun j hj => h _ (.inr ⟨i, hi, by omega, by omega⟩)
    rw [programHeader, readProgramHeader, hread (by omega) (by omega), hread (by omega) (by omega),
      hread (by omega) (by omega), hread (by omega) (by omega), hread (by omega) (by omega),
      hread (by omega) (by omega)]
    rfl

/-- They are in the file. -/
theorem ElfFile.of_isHeaderByte {m : Memory} {elfFile len x : ℕ} (hf : ElfFile m elfFile len)
    (hx : IsHeaderByte m elfFile x) : elfFile ≤ x ∧ x < elfFile + len := by
  have hlen := hf.header
  rcases hx with hx | ⟨i, hi, h₁, h₂⟩
  · omega
  · have ht := hf.table i hi
    have hw := hf.no_wrap
    have haddr : headerAddr m elfFile i = elfFile +
        ((readFileHeader m elfFile).programHeaderTablePosition +
          i * (readFileHeader m elfFile).programHeaderTableEntrySize) := by
      rw [headerAddr, Nat.mod_eq_of_lt (by omega), Nat.add_assoc]
    rw [haddr] at h₁ h₂
    omega

theorem ElfFile.headersKept {m m' : Memory} {elfFile len : ℕ} (hf : ElfFile m elfFile len)
    (h : ∀ x, elfFile ≤ x → x < elfFile + len → m' x = m x) : HeadersKept m elfFile m' :=
  headersKept_of_bytes fun x hx => h x (hf.of_isHeaderByte hx).1 (hf.of_isHeaderByte hx).2

/-- A longer file with the same headers is in order, too. -/
theorem ElfFile.of_headersKept {m m' : Memory} {elfFile len len' : ℕ} (hf : ElfFile m elfFile len)
    (h : HeadersKept m elfFile m') (hlen : len ≤ len') (hw : elfFile + len' ≤ 2 ^ 64) :
    ElfFile m' elfFile len' := by
  refine ⟨hf.header.trans hlen, fun i hi => ?_, hw⟩
  rw [numHeaders, h.file] at hi
  rw [h.file]
  exact (hf.table i hi).trans hlen

/-- A file of one segment is in order. -/
theorem elfFile_oneSegment {elfFile len : ℕ} (h : ELF64ProgramHeader) (hlen : 120 ≤ len)
    (hw : elfFile + len ≤ 2 ^ 64) : ElfFile (oneSegment elfFile h) elfFile len := by
  refine ⟨by omega, fun i hi => ?_, hw⟩
  rw [numHeaders_oneSegment] at hi
  rw [readFileHeader_oneSegment]
  obtain rfl : i = 0 := by omega
  exact hlen

/-! ## The code buffer -/

/-- The size of the code buffer. -/
def codeBufferSize : ℕ := 167772160

/-- The memory laid out by `cboot_main` at the physical address `p`, as seen in the map of
    physical memory: the code buffer, and above it the file of at most 96 MB. -/
structure KernelLayout (m : Memory) (p len : ℕ) : Prop where
  aligned : p % 0x1000 = 0
  mapped : p + 268435456 ≤ 2 ^ 39
  file : ElfFile m (0xFFFF800000000000 + p + codeBufferSize) len
  len_le : len ≤ 100663296

/-- The bytes of the copy are in the code buffer. -/
def Copy.Inside (codeBuffer : ℕ) (c : Copy) : Prop :=
  ∀ x, c.dst ≤ x → x < c.dst + c.size → codeBuffer ≤ x ∧ x < codeBuffer + codeBufferSize

/-- The frame of the call is in the code buffer at the physical address `p`. -/
def Call.Inside (p : ℕ) (c : Call) : Prop := p ≤ c.pa ∧ c.pa + 0x1000 ≤ p + codeBufferSize

/-- All that the loader has asked for is in the code buffer. -/
def Trace.Inside (p : ℕ) (t : Trace) : Prop :=
  (∀ c ∈ t.copies, c.Inside (0xFFFF800000000000 + p)) ∧ ∀ c ∈ t.calls, c.Inside p

/-- The loader stays inside its code buffer, at the physical address `p`. -/
def StaysInside (m : Memory) (p : ℕ) : Prop :=
  (kernelTrace m (0xFFFF800000000000 + p + codeBufferSize) (0xFFFF800000000000 + p)).Inside p

/-- How far into the code buffer the data of a segment goes. -/
def bufferOffset (h : ELF64ProgramHeader) : ℕ := (h.offset + (2 ^ 64 - h.align)) % 2 ^ 64

/-- The data of the segment goes to the code buffer, and so do the frames of its pages, of
    the address of which the low 45 bits count. -/
def FitsBuffer (h : ELF64ProgramHeader) : Prop :=
  (h.filesz = 0 ∨ bufferOffset h + h.filesz ≤ codeBufferSize) ∧
    (numPages h = 0 ∨ bufferOffset h % 2 ^ 45 < codeBufferSize)

section inside

variable {m : Memory} {p len : ℕ} {h : ELF64ProgramHeader}

theorem segmentData_eq (codeBuffer : ℕ) (h : ELF64ProgramHeader) :
    segmentData codeBuffer h = (codeBuffer + bufferOffset h) % 2 ^ 64 := by
  rw [segmentData, bufferOffset]
  omega

theorem inside_segmentCopy_iff (elfFile : ℕ) (hp : p + 268435456 ≤ 2 ^ 39)
    (hf : h.filesz < 2 ^ 64) :
    (segmentCopy elfFile (0xFFFF800000000000 + p) h).Inside (0xFFFF800000000000 + p) ↔
      h.filesz = 0 ∨ bufferOffset h + h.filesz ≤ codeBufferSize := by
  have hw : bufferOffset h < 2 ^ 64 := Nat.mod_lt _ (by decide)
  simp only [Copy.Inside, segmentCopy, segmentData_eq, codeBufferSize]
  generalize bufferOffset h = w at hw ⊢
  constructor
  · intro hin
    by_cases hz : h.filesz = 0
    · exact .inl hz
    · -- The first and the last byte decide.
      have h₁ := hin _ le_rfl (Nat.lt_add_of_pos_right (by omega))
      have h₂ := hin ((0xFFFF800000000000 + p + w) % 2 ^ 64 + h.filesz - 1) (by omega) (by omega)
      omega
  · rintro (hz | hle) x h₁ h₂ <;> omega

/-- The area is made of pages. -/
theorem inside_segmentFrame_iff (ha : p % 0x1000 = 0) (hp : p + 268435456 ≤ 2 ^ 39) (va : ℕ) :
    (Call.map4kb va (segmentFrame (0xFFFF800000000000 + p) h)).Inside p ↔
      bufferOffset h % 2 ^ 45 < codeBufferSize := by
  simp only [Call.Inside, Call.pa, segmentFrame_eq, segmentData_eq, codeBufferSize]
  omega

/-- What a segment asks for is in the buffer. -/
theorem inside_segment_iff (elfFile : ℕ) (ha : p % 0x1000 = 0) (hp : p + 268435456 ≤ 2 ^ 39)
    (hf : h.filesz < 2 ^ 64) :
    ((segmentCopy elfFile (0xFFFF800000000000 + p) h).Inside (0xFFFF800000000000 + p) ∧
      ∀ c ∈ segmentCalls (0xFFFF800000000000 + p) h, c.Inside p) ↔ FitsBuffer h := by
  refine and_congr (inside_segmentCopy_iff elfFile hp hf) ?_
  simp only [segmentCalls, List.mem_map, List.mem_range]
  constructor
  · intro hall
    by_cases hz : numPages h = 0
    · exact .inl hz
    · exact .inr ((inside_segmentFrame_iff ha hp _).1 (hall _ ⟨0, by omega, rfl⟩))
  · rintro (hz | hlt) c ⟨i, hi, rfl⟩
    · omega
    · exact (inside_segmentFrame_iff ha hp _).2 hlt

/-- What has been asked for remains asked for. -/
theorem Trace.Inside.of_memcpy {t : Trace} {dst src size : ℕ}
    (h : (tracedMachine.memcpy t dst src size).Inside p) :
    t.Inside p ∧ Copy.Inside (0xFFFF800000000000 + p) ⟨dst, src, size⟩ :=
  ⟨⟨fun c hc => h.1 c (List.mem_append_left _ hc), h.2⟩,
    h.1 _ (List.mem_append_right _ List.mem_cons_self)⟩

theorem Trace.Inside.of_map4kbPage {t : Trace} {va pa : ℕ}
    (h : (tracedMachine.map4kbPage t va pa).Inside p) :
    t.Inside p ∧ (Call.map4kb va pa).Inside p :=
  ⟨⟨h.1, fun c hc => h.2 c (List.mem_append_left _ hc)⟩,
    h.2 _ (List.mem_append_right _ List.mem_cons_self)⟩

/-- As long as the loader is inside its buffer, the file is kept. -/
theorem loadInvariant_inside (hl : KernelLayout m p len) :
    LoadInvariant tracedMachine (0xFFFF800000000000 + p + codeBufferSize) (0xFFFF800000000000 + p)
      m (fun t => t.Inside p ∧ ∀ x, 0xFFFF800000000000 + p + codeBufferSize ≤ x → t.mem x = m x)
      (fun t => ¬t.Inside p) (fun h => ¬FitsBuffer h) where
  kept := fun ⟨_, hm⟩ => hl.file.headersKept fun x hx _ => hm x hx
  copy := by
    rintro t h ⟨ht, hm⟩ hh
    have hf := (sized_of_mem_segments hh).2.2.2.1
    by_cases hin : (segmentCopy (0xFFFF800000000000 + p + codeBufferSize)
        (0xFFFF800000000000 + p) h).Inside (0xFFFF800000000000 + p)
    · refine .inl ⟨⟨fun c hc => ?_, ht.2⟩, fun x hx => ?_⟩
      · rcases List.mem_append.1 hc with hc | hc
        · exact ht.1 c hc
        · exact List.mem_singleton.1 hc ▸ hin
      · refine (memcpy_frame _ _ ?_).trans (hm x hx)
        -- The copy ends before the file.
        by_contra hout
        have := hin x (by simp only [segmentCopy]; omega) (by simp only [segmentCopy]; omega)
        omega
    · exact .inr ⟨fun h' => hin h'.of_memcpy.2, fun h' =>
        hin ((inside_segment_iff _ hl.aligned hl.mapped hf).2 h').1⟩
  map := by
    rintro t h i ⟨ht, hm⟩ hh hi
    have hf := (sized_of_mem_segments hh).2.2.2.1
    by_cases hin : (Call.map4kb (pageVaddr h i) (segmentFrame (0xFFFF800000000000 + p) h)).Inside p
    · refine .inl ⟨⟨ht.1, fun c hc => ?_⟩, hm⟩
      rcases List.mem_append.1 hc with hc | hc
      · exact ht.2 c hc
      · exact List.mem_singleton.1 hc ▸ hin
    · refine .inr ⟨fun h' => hin h'.of_map4kbPage.2, fun h' => hin ?_⟩
      exact ((inside_segment_iff 0 hl.aligned hl.mapped hf).2 h').2 _
        (List.mem_map.2 ⟨i, List.mem_range.2 hi, rfl⟩)
  memcpy_of_bad := fun _ _ _ hb h => hb h.of_memcpy.1
  map4kbPage_of_bad := fun _ _ hb h => hb h.of_map4kbPage.1

/-- The loader stays inside if and only if every segment is put inside. -/
theorem staysInside_iff_fitsBuffer (hl : KernelLayout m p len) :
    StaysInside m p ↔
      ∀ h ∈ segments m (0xFFFF800000000000 + p + codeBufferSize), FitsBuffer h := by
  have hstart : Trace.Inside p ⟨m, [], []⟩ := by
    constructor
    · exact fun c hc => absurd hc List.not_mem_nil
    · exact fun c hc => absurd hc List.not_mem_nil
  rw [StaysInside, kernelTrace]
  rcases (loadInvariant_inside hl).mapKernel_cases ⟨hstart, fun _ _ => rfl⟩ 0 with
    ⟨⟨hin, _⟩, heq⟩ | ⟨hout, h, hh, hbad⟩
  · refine ⟨fun _ h hh => ?_, fun _ => hin⟩
    have hf := (sized_of_mem_segments hh).2.2.2.1
    obtain ⟨hcopies, hcalls⟩ := trace_foldl (0xFFFF800000000000 + p + codeBufferSize)
      (0xFFFF800000000000 + p) (segments m (0xFFFF800000000000 + p + codeBufferSize)) ⟨m, [], []⟩
    rw [heq, Trace.Inside, hcopies, hcalls] at hin
    refine (inside_segment_iff (0xFFFF800000000000 + p + codeBufferSize) hl.aligned hl.mapped
      hf).1 ⟨?_, fun c hc => ?_⟩
    · exact hin.1 _ (List.mem_append_right _ (List.mem_map_of_mem hh))
    · exact hin.2 _ (List.mem_append_right _ (List.mem_flatMap.2 ⟨h, hh, hc⟩))
  · exact ⟨fun hin => absurd hin hout, fun hall => absurd (hall h hh) hbad⟩

/-- The data of the segment comes from a file of `len` bytes, and its alignment is a power
    of two. -/
def SegmentInFile (len : ℕ) (h : ELF64ProgramHeader) : Prop :=
  h.offset + h.filesz ≤ len ∧ ∃ k, h.align = 2 ^ k

/-- Such a segment is put inside the buffer if its alignment is at most its offset, or if
    nothing is copied and the pages, if there are any, are mapped as if it were. -/
theorem fitsBuffer_iff (hlen : len ≤ 100663296) (hs : SegmentInFile len h) (hz : h.Sized) :
    FitsBuffer h ↔ h.align ≤ h.offset ∨
      h.filesz = 0 ∧ (2 ^ 45 ≤ h.align ∨ 2 ^ 64 - 0x1000 ≤ h.memsz) := by
  obtain ⟨hle, k, hk⟩ := hs
  have hpages : numPages h = 0 ↔ 2 ^ 64 - 0x1000 ≤ h.memsz := by
    have := hz.2.2.2.2.1
    rw [numPages_eq hz]
    split <;> omega
  have ha := hz.2.2.2.2.2
  have hoff : h.offset ≤ 100663296 := by omega
  rw [FitsBuffer, hpages, bufferOffset, codeBufferSize]
  by_cases h45 : 2 ^ 45 ≤ h.align
  · -- The low 45 bits of the alignment are zero.
    have hdvd : h.align % 2 ^ 45 = 0 := by
      have hk45 : 45 ≤ k := by
        by_contra hlt
        have : 2 ^ k < 2 ^ 45 := Nat.pow_lt_pow_right (by decide) (by omega)
        omega
      obtain ⟨j, rfl⟩ := Nat.exists_eq_add_of_le hk45
      rw [hk, Nat.pow_add]
      exact Nat.mul_mod_right ..
    omega
  · -- Below, nothing of it is lost, and the difference is out of the buffer or in it.
    have h44 : h.align ≤ 2 ^ 44 := by
      have hk45 : k < 45 := by
        by_contra hlt
        have : 2 ^ 45 ≤ 2 ^ k := Nat.pow_le_pow_right (by decide) (by omega)
        omega
      rw [hk]
      exact Nat.pow_le_pow_right (by decide) (by omega)
    omega

/-- For a file in order, the loader stays inside its buffer if and only if the alignment of
    no segment exceeds its offset, segments without data and pages apart. In a file without
    program headers, what is in the place of the first one counts. -/
theorem staysInside_iff {elfFile : ℕ} (hl : KernelLayout m p len)
    (he : elfFile = 0xFFFF800000000000 + p + codeBufferSize)
    (hs : ∀ i < (readFileHeader m elfFile).programHeaderTableEntryCount,
      (programHeader m elfFile i).type = 1 → SegmentInFile len (programHeader m elfFile i)) :
    StaysInside m p ↔
      (∀ i < (readFileHeader m elfFile).programHeaderTableEntryCount,
        (programHeader m elfFile i).type = 1 →
          (programHeader m elfFile i).align ≤ (programHeader m elfFile i).offset ∨
          (programHeader m elfFile i).filesz = 0 ∧
            (2 ^ 45 ≤ (programHeader m elfFile i).align ∨
              2 ^ 64 - 0x1000 ≤ (programHeader m elfFile i).memsz)) ∧
      ((readFileHeader m elfFile).programHeaderTableEntryCount = 0 →
        (programHeader m elfFile 0).type = 1 → FitsBuffer (programHeader m elfFile 0)) := by
  subst he
  rw [staysInside_iff_fitsBuffer hl]
  generalize 0xFFFF800000000000 + p + codeBufferSize = elfFile at hs ⊢
  have hcond : ∀ i < (readFileHeader m elfFile).programHeaderTableEntryCount,
      (programHeader m elfFile i).type = 1 →
      (FitsBuffer (programHeader m elfFile i) ↔ _) := fun i hi ht =>
    fitsBuffer_iff hl.len_le (hs i hi ht) (sized_readProgramHeader m _)
  constructor
  · refine fun hall => ⟨fun i hi ht => (hcond i hi ht).1 (hall _ ?_), fun _ ht => hall _ ?_⟩
    · exact mem_segments_iff.2 ⟨i, Nat.lt_of_lt_of_le hi (Nat.le_max_right ..), rfl, ht⟩
    · exact mem_segments_iff.2 ⟨0, Nat.lt_of_lt_of_le Nat.one_pos (Nat.le_max_left ..), rfl, ht⟩
  · rintro ⟨h₁, h₀⟩ h hh
    obtain ⟨i, hi, rfl, ht⟩ := mem_segments_iff.1 hh
    rw [numHeaders] at hi
    -- The segment is in the table, or in the place of the first header of an empty one.
    by_cases hz : (readFileHeader m elfFile).programHeaderTableEntryCount = 0
    · obtain rfl : i = 0 := by omega
      exact h₀ hz ht
    · exact (hcond i (by omega) ht).2 (h₁ i (by omega) ht)

/-- The file of one segment, of which the first page is loaded at 1 MB. -/
theorem kernelLayout_oneSegment (h : ELF64ProgramHeader) :
    KernelLayout (oneSegment 0xFFFF80000A100000 h) 0x100000 0x2000 where
  aligned := rfl
  mapped := by decide
  file := elfFile_oneSegment h (by decide) (by decide)
  len_le := by decide

/-- A segment of one page, after a page of headers. -/
theorem staysInside_second_page :
    let m := oneSegment 0xFFFF80000A100000
      ⟨1, 0x1000, 0xFFFF900000000000, 0x1000, 0x1000, 0x1000⟩
    KernelLayout m 0x100000 0x2000 ∧ StaysInside m 0x100000 := by
  have hl := kernelLayout_oneSegment ⟨1, 0x1000, 0xFFFF900000000000, 0x1000, 0x1000, 0x1000⟩
  have hp : programHeader (oneSegment 0xFFFF80000A100000
      ⟨1, 0x1000, 0xFFFF900000000000, 0x1000, 0x1000, 0x1000⟩) 0xFFFF80000A100000 0 =
      ⟨1, 0x1000, 0xFFFF900000000000, 0x1000, 0x1000, 0x1000⟩ :=
    programHeader_oneSegment (by decide) (by decide)
  have hc := congrArg (·.programHeaderTableEntryCount) (readFileHeader_oneSegment
    0xFFFF80000A100000 ⟨1, 0x1000, 0xFFFF900000000000, 0x1000, 0x1000, 0x1000⟩)
  have he : 0xFFFF80000A100000 = 0xFFFF800000000000 + 0x100000 + codeBufferSize := rfl
  refine ⟨hl, (staysInside_iff hl he fun i hi _ => ?_).2
    ⟨fun i hi _ => .inl ?_, fun h₀ => absurd (hc.symm.trans h₀) (by decide)⟩⟩
  · obtain rfl : i = 0 := Nat.lt_one_iff.1 (hi.trans_eq hc)
    rw [hp]
    exact ⟨by decide, 12, rfl⟩
  · obtain rfl : i = 0 := Nat.lt_one_iff.1 (hi.trans_eq hc)
    rw [hp]

/-- A segment that begins with the file is copied to the page below the buffer. -/
theorem not_staysInside_first_page :
    let m := oneSegment 0xFFFF80000A100000 ⟨1, 0, 0xFFFF900000000000, 0x1000, 0x1000, 0x1000⟩
    KernelLayout m 0x100000 0x2000 ∧
      segments m 0xFFFF80000A100000 = [⟨1, 0, 0xFFFF900000000000, 0x1000, 0x1000, 0x1000⟩] ∧
      ¬StaysInside m 0x100000 := by
  have hl := kernelLayout_oneSegment ⟨1, 0, 0xFFFF900000000000, 0x1000, 0x1000, 0x1000⟩
  have hs : segments _ 0xFFFF80000A100000 =
      [⟨1, 0, 0xFFFF900000000000, 0x1000, 0x1000, 0x1000⟩] :=
    segments_oneSegment (by decide) (by decide) rfl
  refine ⟨hl, hs, fun h => ?_⟩
  have hfit := (staysInside_iff_fitsBuffer hl).1 h _ (hs.symm ▸ List.mem_cons_self)
  exact absurd hfit.1 (by decide)

end inside

end Cboot
