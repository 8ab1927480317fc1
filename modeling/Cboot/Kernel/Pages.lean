import Cboot.Kernel.Buffer

/-!
# The pages of the kernel

Which virtual pages the loader maps, and which ones the segments need: those with a byte
of a segment. The number of pages comes from the size of the segment, rounded up in a way
that adds a page to a multiple of the page size, and without regard to where in its first
page the segment begins.

* `kernelTrace_calls`: the calls of `map_4kb_page`, as long as the copies keep off the headers,
  which they do for a file in order, laid out as `cboot_main` does (`copiesKeepHeaders_of_layout`);
* `mem_segmentPages_iff`, `mem_neededPages_iff`: both sets of pages of a segment are
  intervals from its first page on. They differ in one page at most, the last one;
* `mapsNeededPages_iff`: so they agree, as long as the copies keep off the headers, if and only if
  every such page is made up for by another segment (and a file without program headers has no
  segment in the place of the first one).
-/

namespace Cboot

/-- No byte of the headers is in the destination of a copy. -/
def CopiesKeepHeaders (m : Memory) (elfFile codeBuffer : ℕ) : Prop :=
  ∀ h ∈ segments m elfFile, ∀ x, IsHeaderByte m elfFile x →
    x < segmentData codeBuffer h ∨ segmentData codeBuffer h + h.filesz ≤ x

section calls

variable {m : Memory} {elfFile len codeBuffer : ℕ}

/-- While the copies keep off the headers, so do the segments. -/
theorem loadInvariant_keepHeaders (hc : CopiesKeepHeaders m elfFile codeBuffer) :
    LoadInvariant tracedMachine elfFile codeBuffer m
      (fun t => ∀ x, IsHeaderByte m elfFile x → t.mem x = m x)
      (fun _ => False) (fun _ => False) where
  kept := fun hm => headersKept_of_bytes hm
  copy := fun hm hh => .inl fun x hx => (memcpy_frame _ _ (hc _ hh x hx)).trans (hm x hx)
  map := fun hm _ _ => .inl hm
  memcpy_of_bad := fun _ _ _ h => h
  map4kbPage_of_bad := fun _ _ h => h

/-- The calls are those for the segments. -/
theorem kernelTrace_calls (hc : CopiesKeepHeaders m elfFile codeBuffer) :
    (kernelTrace m elfFile codeBuffer).calls =
      (segments m elfFile).flatMap (segmentCalls codeBuffer) := by
  rw [kernelTrace]
  rcases (loadInvariant_keepHeaders hc).mapKernel_cases (s := ⟨m, [], []⟩) (fun _ _ => rfl) 0 with
    ⟨_, heq⟩ | ⟨h, _⟩
  · rw [heq, (trace_foldl elfFile codeBuffer _ _).2, List.nil_append]
  · exact h.elim

/-- In the layout of `cboot_main`, no segment of a file in order is copied over the file: the
    copies end at most 96 MB above the beginning of the code buffer. -/
theorem copiesKeepHeaders_of_layout {p : ℕ} (hl : KernelLayout m p len)
    (hs : ∀ h ∈ segments m (0xFFFF800000000000 + p + codeBufferSize), SegmentInFile len h) :
    CopiesKeepHeaders m (0xFFFF800000000000 + p + codeBufferSize) (0xFFFF800000000000 + p) := by
  intro h hh x hx
  have hx := (hl.file.of_isHeaderByte hx).1
  obtain ⟨hend, k, hk⟩ := hs h hh
  have hlen := hl.len_le
  have hmapped := hl.mapped
  have halign := (sized_of_mem_segments hh).2.2.2.2.2
  -- The alignment is a power of two below 2 ^ 64: below the buffer, nothing wraps around.
  have hle : h.align ≤ 2 ^ 63 := by
    rw [hk] at halign ⊢
    exact Nat.pow_le_pow_right (by decide)
      (Nat.le_of_lt_succ ((Nat.pow_lt_pow_iff_right (by decide)).1 halign))
  refine .inr ?_
  rw [segmentData]
  rw [codeBufferSize] at hx
  omega

end calls

/-! ## Sets of pages -/

/-- The virtual pages passed to `map_4kb_page`. -/
def mappedPages (m : Memory) (elfFile codeBuffer : ℕ) : Set ℕ :=
  {v | ∃ c ∈ (kernelTrace m elfFile codeBuffer).calls, c.va / 0x1000 = v}

/-- The virtual pages that a segment has a byte in. -/
def neededPages (h : ELF64ProgramHeader) : Set ℕ := {v | ∃ k < h.memsz, (h.vaddr + k) / 0x1000 = v}

/-- The virtual pages that are mapped for a segment. -/
def segmentPages (h : ELF64ProgramHeader) : Set ℕ :=
  {v | ∃ i < numPages h, pageVaddr h i / 0x1000 = v}

/-- The segment to load with the number `i` of those in the table. -/
def IsSegment (m : Memory) (elfFile i : ℕ) : Prop :=
  i < (readFileHeader m elfFile).programHeaderTableEntryCount ∧ (programHeader m elfFile i).type = 1

/-- The loader maps the pages that the segments need, and no others. -/
def MapsNeededPages (m : Memory) (elfFile codeBuffer : ℕ) : Prop :=
  ∀ v, v ∈ mappedPages m elfFile codeBuffer ↔
    ∃ i, IsSegment m elfFile i ∧ v ∈ neededPages (programHeader m elfFile i)

/-- The segment is in the window of the kernel. -/
def InWindow (h : ELF64ProgramHeader) : Prop :=
  0xFFFF900000000000 ≤ h.vaddr ∧ h.vaddr + h.memsz < 2 ^ 64

/-- The page of the end of the segment. -/
def endPage (h : ELF64ProgramHeader) : ℕ := (h.vaddr + h.memsz) / 0x1000

/-- The page of the end is mapped and not needed: the segment is empty, or whole pages. -/
def EndsWithPage (h : ELF64ProgramHeader) : Prop :=
  h.memsz = 0 ∨ h.vaddr % 0x1000 = 0 ∧ h.memsz % 0x1000 = 0

/-- The page of the end is needed and not mapped: the segment takes part in one page more
    than its size would tell. -/
def EndsBeyond (h : ELF64ProgramHeader) : Prop :=
  0x1000 < h.vaddr % 0x1000 + h.memsz % 0x1000

section pages

variable {m : Memory} {elfFile len codeBuffer v : ℕ} {h : ELF64ProgramHeader}

theorem mem_mappedPages_iff (hc : CopiesKeepHeaders m elfFile codeBuffer) :
    v ∈ mappedPages m elfFile codeBuffer ↔ ∃ h ∈ segments m elfFile, v ∈ segmentPages h := by
  simp only [mappedPages, segmentPages, Set.mem_ofPred_eq, kernelTrace_calls hc,
    List.mem_flatMap, segmentCalls, List.mem_map, List.mem_range]
  constructor
  · rintro ⟨c, ⟨h, hh, i, hi, rfl⟩, hv⟩
    exact ⟨h, hh, i, hi, hv⟩
  · rintro ⟨h, hh, i, hi, hv⟩
    exact ⟨_, ⟨h, hh, i, hi, rfl⟩, hv⟩

theorem mem_segmentPages_iff (hs : h.Sized) (hw : InWindow h) :
    v ∈ segmentPages h ↔ h.vaddr / 0x1000 ≤ v ∧ v ≤ h.vaddr / 0x1000 + h.memsz / 0x1000 := by
  obtain ⟨h₁, h₂⟩ := hw
  have hn : numPages h = h.memsz / 0x1000 + 1 := by
    rw [numPages_eq hs, if_pos (by omega)]
  simp only [segmentPages, Set.mem_ofPred_eq, hn, pageVaddr]
  constructor
  · rintro ⟨i, hi, rfl⟩
    omega
  · rintro ⟨hle, hlt⟩
    exact ⟨v - h.vaddr / 0x1000, by omega, by omega⟩

theorem mem_neededPages_iff :
    v ∈ neededPages h ↔ h.memsz ≠ 0 ∧ h.vaddr / 0x1000 ≤ v ∧
      v ≤ (h.vaddr + h.memsz - 1) / 0x1000 := by
  simp only [neededPages, Set.mem_ofPred_eq]
  constructor
  · rintro ⟨k, hk, rfl⟩
    omega
  · rintro ⟨hm, hle, hlt⟩
    by_cases hv : v = h.vaddr / 0x1000
    · exact ⟨0, by omega, hv.symm⟩
    · exact ⟨v * 0x1000 - h.vaddr, by omega, by omega⟩

/-- A page mapped and not needed is the one of the end. -/
theorem mem_neededPages_or (hs : h.Sized) (hw : InWindow h) (hv : v ∈ segmentPages h) :
    v ∈ neededPages h ∨ EndsWithPage h ∧ v = endPage h := by
  rw [mem_segmentPages_iff hs hw] at hv
  rw [mem_neededPages_iff, EndsWithPage, endPage]
  omega

/-- So is a page needed and not mapped. -/
theorem mem_segmentPages_or (hs : h.Sized) (hw : InWindow h) (hv : v ∈ neededPages h) :
    v ∈ segmentPages h ∨ EndsBeyond h ∧ v = endPage h := by
  rw [mem_neededPages_iff] at hv
  rw [mem_segmentPages_iff hs hw, EndsBeyond, endPage]
  omega

theorem endPage_mem_segmentPages (hs : h.Sized) (hw : InWindow h) (he : EndsWithPage h) :
    endPage h ∈ segmentPages h := by
  rw [EndsWithPage] at he
  rw [mem_segmentPages_iff hs hw, endPage]
  omega

theorem endPage_mem_neededPages (he : EndsBeyond h) : endPage h ∈ neededPages h := by
  rw [EndsBeyond] at he
  rw [mem_neededPages_iff, endPage]
  omega

/-- No page is mapped for a segment of a size that is rounded up to `2 ^ 64`. -/
theorem segmentPages_nonempty (hs : h.Sized) :
    (∃ v, v ∈ segmentPages h) ↔ h.memsz < 2 ^ 64 - 0x1000 := by
  simp only [segmentPages, Set.mem_ofPred_eq]
  rw [numPages_eq hs]
  constructor
  · rintro ⟨v, i, hi, _⟩
    split at hi
    · assumption
    · omega
  · intro hlt
    rw [if_pos hlt]
    exact ⟨_, 0, Nat.succ_pos _, rfl⟩

/-- Without program headers there is no segment, but perhaps something in the place of the
    first header, that is gone through all the same. -/
theorem mapsNeededPages_iff_of_eq_zero (hc : CopiesKeepHeaders m elfFile codeBuffer)
    (h₀ : (readFileHeader m elfFile).programHeaderTableEntryCount = 0) :
    MapsNeededPages m elfFile codeBuffer ↔ ((programHeader m elfFile 0).type = 1 →
      2 ^ 64 - 0x1000 ≤ (programHeader m elfFile 0).memsz) := by
  simp only [MapsNeededPages, mem_mappedPages_iff hc]
  have hno : ∀ i, ¬IsSegment m elfFile i := fun i hi => by
    have := hi.1
    omega
  have hne := segmentPages_nonempty (sized_readProgramHeader m (headerAddr m elfFile 0))
  constructor
  · intro h ht
    by_contra hlt
    obtain ⟨v, hv⟩ := hne.2 (by rw [programHeader] at hlt; omega)
    have hmem : programHeader m elfFile 0 ∈ segments m elfFile :=
      mem_segments_iff.2 ⟨0, Nat.lt_of_lt_of_le Nat.one_pos (Nat.le_max_left ..), rfl, ht⟩
    obtain ⟨i, hi, _⟩ := (h v).1 ⟨_, hmem, hv⟩
    exact hno i hi
  · intro hz v
    constructor
    · rintro ⟨h, hh, hv⟩
      -- It is the one header that is gone through.
      obtain ⟨i, hi, rfl, ht⟩ := mem_segments_iff.1 hh
      rw [numHeaders] at hi
      obtain rfl : i = 0 := by omega
      have hlt := hne.1 ⟨v, hv⟩
      have hle := hz ht
      rw [programHeader] at hle
      omega
    · rintro ⟨i, hi, _⟩
      exact absurd hi (hno i)

/-- With program headers, those of the table are gone through. -/
theorem mem_segments_iff_isSegment
    (h₀ : (readFileHeader m elfFile).programHeaderTableEntryCount ≠ 0) :
    h ∈ segments m elfFile ↔ ∃ i, IsSegment m elfFile i ∧ programHeader m elfFile i = h := by
  constructor
  · intro hh
    obtain ⟨i, hi, rfl, ht⟩ := mem_segments_iff.1 hh
    rw [numHeaders] at hi
    exact ⟨i, ⟨by omega, ht⟩, rfl⟩
  · rintro ⟨i, ⟨hi, ht⟩, rfl⟩
    exact mem_segments_iff.2 ⟨i, Nat.lt_of_lt_of_le hi (Nat.le_max_right ..), rfl, ht⟩

/-- With program headers, a page that is mapped or left out in error is that of the end of a
    segment: it has to be the business of another one. -/
theorem mapsNeededPages_iff_of_ne_zero (hc : CopiesKeepHeaders m elfFile codeBuffer)
    (hw : ∀ i, IsSegment m elfFile i → InWindow (programHeader m elfFile i))
    (h₀ : (readFileHeader m elfFile).programHeaderTableEntryCount ≠ 0) :
    MapsNeededPages m elfFile codeBuffer ↔
      (∀ i, IsSegment m elfFile i → EndsWithPage (programHeader m elfFile i) →
        ∃ j, IsSegment m elfFile j ∧
          endPage (programHeader m elfFile i) ∈ neededPages (programHeader m elfFile j)) ∧
      (∀ i, IsSegment m elfFile i → EndsBeyond (programHeader m elfFile i) →
        ∃ j, IsSegment m elfFile j ∧
          endPage (programHeader m elfFile i) ∈ segmentPages (programHeader m elfFile j)) := by
  have hs : ∀ i, (programHeader m elfFile i).Sized := fun i => sized_readProgramHeader m _
  have hmem : ∀ v, v ∈ mappedPages m elfFile codeBuffer ↔
      ∃ i, IsSegment m elfFile i ∧ v ∈ segmentPages (programHeader m elfFile i) := by
    intro v
    rw [mem_mappedPages_iff hc]
    simp only [mem_segments_iff_isSegment h₀]
    exact ⟨fun ⟨_, ⟨i, hi, rfl⟩, hv⟩ => ⟨i, hi, hv⟩, fun ⟨i, hi, hv⟩ => ⟨_, ⟨i, hi, rfl⟩, hv⟩⟩
  simp only [MapsNeededPages, hmem]
  constructor
  · refine fun h => ⟨fun i hi he => ?_, fun i hi he => ?_⟩
    · exact (h _).1 ⟨i, hi, endPage_mem_segmentPages (hs i) (hw i hi) he⟩
    · exact (h _).2 ⟨i, hi, endPage_mem_neededPages he⟩
  · rintro ⟨hmore, hless⟩ v
    constructor
    · rintro ⟨i, hi, hv⟩
      rcases mem_neededPages_or (hs i) (hw i hi) hv with hv | ⟨he, rfl⟩
      · exact ⟨i, hi, hv⟩
      · exact hmore i hi he
    · rintro ⟨i, hi, hv⟩
      rcases mem_segmentPages_or (hs i) (hw i hi) hv with hv | ⟨he, rfl⟩
      · exact ⟨i, hi, hv⟩
      · exact hless i hi he

/-- Every page that is mapped or left out in error is the business of another segment, and there is
    no segment in the place of the first header of an empty table. -/
structure PagesMadeUpFor (m : Memory) (elfFile : ℕ) : Prop where
  none : (readFileHeader m elfFile).programHeaderTableEntryCount = 0 →
    (programHeader m elfFile 0).type = 1 → 2 ^ 64 - 0x1000 ≤ (programHeader m elfFile 0).memsz
  more : ∀ i, IsSegment m elfFile i → EndsWithPage (programHeader m elfFile i) →
    ∃ j, IsSegment m elfFile j ∧
      endPage (programHeader m elfFile i) ∈ neededPages (programHeader m elfFile j)
  less : ∀ i, IsSegment m elfFile i → EndsBeyond (programHeader m elfFile i) →
    ∃ j, IsSegment m elfFile j ∧
      endPage (programHeader m elfFile i) ∈ segmentPages (programHeader m elfFile j)

/-- While the copies keep off the headers, the pages that the segments need are mapped if and only
    if those in error are made up for. -/
theorem mapsNeededPages_iff_madeUpFor (hc : CopiesKeepHeaders m elfFile codeBuffer)
    (hw : ∀ i, IsSegment m elfFile i → InWindow (programHeader m elfFile i)) :
    MapsNeededPages m elfFile codeBuffer ↔ PagesMadeUpFor m elfFile := by
  by_cases h₀ : (readFileHeader m elfFile).programHeaderTableEntryCount = 0
  · have hno : ∀ i, ¬IsSegment m elfFile i := fun i hi => by
      have := hi.1
      omega
    rw [mapsNeededPages_iff_of_eq_zero hc h₀]
    exact ⟨fun h => ⟨fun _ => h, fun i hi => absurd hi (hno i), fun i hi => absurd hi (hno i)⟩,
      fun h => h.none h₀⟩
  · rw [mapsNeededPages_iff_of_ne_zero hc hw h₀]
    exact ⟨fun h => ⟨fun h' => absurd h' h₀, h.1, h.2⟩, fun h => ⟨h.more, h.less⟩⟩

/-- The loader maps the pages that the segments need if no segment is copied over the headers and
    the pages in error are made up for. The latter is needed where the former is so. -/
theorem mapsNeededPages_iff
    (hw : ∀ i, IsSegment m elfFile i → InWindow (programHeader m elfFile i)) :
    (CopiesKeepHeaders m elfFile codeBuffer ∧ PagesMadeUpFor m elfFile →
      MapsNeededPages m elfFile codeBuffer) ∧
    (CopiesKeepHeaders m elfFile codeBuffer → MapsNeededPages m elfFile codeBuffer →
      PagesMadeUpFor m elfFile) :=
  ⟨fun h => (mapsNeededPages_iff_madeUpFor h.1 hw).2 h.2,
    fun hc => (mapsNeededPages_iff_madeUpFor hc hw).1⟩

/-- A file of one segment without data. -/
theorem oneSegment_ok (hz : h.Sized) (ht : h.type = 1) (h₀ : h.filesz = 0) :
    let m := oneSegment 0xFFFF80000A100000 h
    CopiesKeepHeaders m 0xFFFF80000A100000 0xFFFF800000100000 ∧
      segments m 0xFFFF80000A100000 = [h] ∧
      (∀ i, IsSegment m 0xFFFF80000A100000 i ↔ i = 0) ∧
      programHeader m 0xFFFF80000A100000 0 = h := by
  intro m
  have hs : segments m 0xFFFF80000A100000 = [h] := segments_oneSegment (by decide) hz ht
  have hp : programHeader m 0xFFFF80000A100000 0 = h := programHeader_oneSegment (by decide) hz
  refine ⟨fun h' hh x _ => ?_, hs, fun i => ?_, hp⟩
  · rw [hs] at hh
    rw [List.mem_singleton.1 hh, h₀]
    exact Nat.lt_or_ge _ _
  · rw [IsSegment, readFileHeader_oneSegment, Nat.lt_one_iff]
    constructor
    · exact And.left
    · rintro rfl
      exact ⟨rfl, (congrArg (·.type) hp).trans ht⟩

/-- A segment that does not end with a page. -/
theorem mapsNeededPages_part : MapsNeededPages (oneSegment 0xFFFF80000A100000
    ⟨1, 0x1000, 0xFFFF900000000000, 0, 0x1FFF, 0x1000⟩) 0xFFFF80000A100000 0xFFFF800000100000 := by
  have hz : ELF64ProgramHeader.Sized ⟨1, 0x1000, 0xFFFF900000000000, 0, 0x1FFF, 0x1000⟩ := by decide
  obtain ⟨hc, _, hi, hp⟩ := oneSegment_ok hz rfl rfl
  have hcount := congrArg (·.programHeaderTableEntryCount) (readFileHeader_oneSegment
    0xFFFF80000A100000 ⟨1, 0x1000, 0xFFFF900000000000, 0, 0x1FFF, 0x1000⟩)
  refine (mapsNeededPages_iff fun i h => ?_).1
    ⟨hc, ⟨fun h₀ => absurd (hcount.symm.trans h₀) (by decide), fun i h he => ?_,
      fun i h he => ?_⟩⟩
  · obtain rfl := (hi i).1 h
    rw [hp]
    exact ⟨by decide, by decide⟩
  · obtain rfl := (hi i).1 h
    rw [hp] at he
    rcases he with he | he
    · exact absurd he (by decide)
    · exact absurd he.2 (by decide)
  · obtain rfl := (hi i).1 h
    rw [hp] at he
    exact absurd he (by unfold EndsBeyond; decide)

/-- For a segment of exactly one page, the next page is mapped as well. -/
theorem not_mapsNeededPages_page :
    let m := oneSegment 0xFFFF80000A100000
      ⟨1, 0x1000, 0xFFFF900000000000, 0, 0x1000, 0x1000⟩
    (∀ i, IsSegment m 0xFFFF80000A100000 i → InWindow (programHeader m 0xFFFF80000A100000 i)) ∧
      ¬MapsNeededPages m 0xFFFF80000A100000 0xFFFF800000100000 := by
  have hz : ELF64ProgramHeader.Sized ⟨1, 0x1000, 0xFFFF900000000000, 0, 0x1000, 0x1000⟩ := by decide
  obtain ⟨hc, hs, hi, hp⟩ := oneSegment_ok hz rfl rfl
  have hw : InWindow ⟨1, 0x1000, 0xFFFF900000000000, 0, 0x1000, 0x1000⟩ := ⟨by decide, by decide⟩
  refine ⟨fun i h => ?_, fun h => ?_⟩
  · obtain rfl := (hi i).1 h
    rw [hp]
    exact hw
  · have hend := endPage_mem_segmentPages hz hw (.inr ⟨rfl, rfl⟩)
    have hmem : _ ∈ segments _ _ := hs.symm ▸ List.mem_singleton_self _
    obtain ⟨i, h', hv⟩ := (h _).1 ((mem_mappedPages_iff hc).2 ⟨_, hmem, hend⟩)
    obtain rfl := (hi i).1 h'
    rw [hp, mem_neededPages_iff] at hv
    exact absurd hv.2.2 (by decide)

end pages

end Cboot
