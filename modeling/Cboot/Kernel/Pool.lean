import Cboot.Kernel.Pages
import Cboot.Paging.Count
import Mathlib.Algebra.BigOperators.Group.List.Basic

/-!
# The page tables of the kernel

How many tables the kernel takes. The pool begins at 0x20000 and knows no end; the stack
of the loader begins at 0x6FFF0 and grows towards it. One boot takes one page for the map
of physical memory, and then those for the pages of the kernel.

* `kernelTablePaths`: the paths of indices for which the kernel needs a table;
* `kernelTables_it`: exactly so many pages are handed out after the first one;
* `poolBelowStack_iff`: the pool keeps off the stack if there are at most 78 of them, and then
  only, as long as the copies of the loader keep off the headers of the file.
-/

namespace Cboot

/-- The tables after one boot: the map of physical memory, then the calls of the loader. -/
def kernelTables (m₀ : Memory) (total : ℕ) (m : Memory) (elfFile codeBuffer : ℕ) : PagingState :=
  runCalls (setupPhysicalMap (.boot m₀) total) (kernelTrace m elfFile codeBuffer).calls

/-- The page at `t` has been handed out by `new_page_table`. -/
def HandedOut (st : PagingState) (t : ℕ) : Prop := t % 0x1000 = 0 ∧ 0x20000 ≤ t ∧ t < st.it

/-- No page handed out contains the quadword at 0x6FFE8, the first one of the stack. -/
def PoolBelowStack (st : PagingState) : Prop :=
  ∀ t, HandedOut st t → ¬(t ≤ 0x6FFE8 ∧ 0x6FFF0 ≤ t + 0x1000)

/-- The paths of the tables for the pages of the segments. -/
def kernelTablePaths (m : Memory) (elfFile : ℕ) : Finset (List (Fin 512)) :=
  ((segments m elfFile).flatMap fun h => (List.range (numPages h)).flatMap fun i =>
    (Call.map4kb (pageVaddr h i) 0).tablePaths).toFinset

/-- The sizes of the segments, in all. -/
def kernelMemsz (m : Memory) (elfFile : ℕ) : ℕ := ((segments m elfFile).map (·.memsz)).sum

/-- The segments of the table: a file may have none. -/
def tableSegments (m : Memory) (elfFile : ℕ) : List ELF64ProgramHeader :=
  ((List.range (readFileHeader m elfFile).programHeaderTableEntryCount).map
    (programHeader m elfFile)).filter (·.type = 1)

/-- If the table is empty, what is in the place of its first header is no segment, or one as those
    of a kernel. -/
def FirstHeaderFits (m : Memory) (elfFile : ℕ) : Prop :=
  (readFileHeader m elfFile).programHeaderTableEntryCount = 0 →
    (programHeader m elfFile 0).type = 1 →
    InWindow (programHeader m elfFile 0) ∧ (programHeader m elfFile 0).memsz ≤ codeBufferSize

section pool

variable {m₀ m : Memory} {total elfFile codeBuffer : ℕ} {h : ELF64ProgramHeader}

theorem poolBelowStack_iff_it_le {st : PagingState} (ha : st.it % 0x1000 = 0) :
    PoolBelowStack st ↔ st.it ≤ 0x6F000 := by
  constructor
  · intro hp
    by_contra hlt
    exact hp 0x6F000 ⟨by decide, by decide, Nat.lt_of_not_le hlt⟩ ⟨by decide, by decide⟩
  · rintro hle t ⟨ht, _, hlt⟩ ⟨_, hmem⟩
    omega

/-- The frames of the segments are aligned. -/
theorem aligned_segmentCalls {c : Call} (hc : c ∈ segmentCalls codeBuffer h) :
    c.Is4kb ∧ c.Aligned := by
  obtain ⟨i, _, rfl⟩ := List.mem_map.1 hc
  refine ⟨⟨_, _, rfl⟩, ?_⟩
  rw [Call.Aligned, segmentFrame_eq]
  omega

/-- The pages of a segment in the window are elsewhere than the first 512 GiB and the map of
    physical memory. -/
theorem l4Index_segmentCalls (hs : h.Sized) (hw : InWindow h) {c : Call}
    (hc : c ∈ segmentCalls codeBuffer h) :
    0xFFFF900000000000 ≤ c.va ∧ c.va < 2 ^ 64 ∧ l4Index c.va ≠ 0 ∧ l4Index c.va ≠ 256 := by
  obtain ⟨i, hi, rfl⟩ := List.mem_map.1 hc
  obtain ⟨hw₁, hw₂⟩ := hw
  have hn : numPages h = h.memsz / 0x1000 + 1 := by rw [numPages_eq hs, if_pos (by omega)]
  rw [List.mem_range, hn] at hi
  -- The pages end with the segment, or one page after it, and do not wrap around.
  have hva : 0xFFFF900000000000 ≤ pageVaddr h i ∧ pageVaddr h i < 2 ^ 64 := by
    rw [pageVaddr]
    omega
  have hval : (l4Index (pageVaddr h i)).val = pageVaddr h i / 2 ^ 39 % 2 ^ 9 := rfl
  refine ⟨hva.1, hva.2, fun h₀ => ?_, fun h₁ => ?_⟩
  · have : pageVaddr h i / 2 ^ 39 % 2 ^ 9 = 0 := hval.symm.trans (congrArg Fin.val h₀)
    omega
  · have : pageVaddr h i / 2 ^ 39 % 2 ^ 9 = 256 := hval.symm.trans (congrArg Fin.val h₁)
    omega

/-- The number of calls is in proportion to the sizes of the segments. -/
theorem length_segmentCalls_le (codeBuffer : ℕ) (hs : h.Sized) :
    (segmentCalls codeBuffer h).length ≤ h.memsz + 1 := by
  rw [segmentCalls, List.length_map, List.length_range, numPages_eq hs]
  split <;> omega

theorem length_segments_le (m : Memory) (elfFile : ℕ) : (segments m elfFile).length ≤ 65536 := by
  have hle := entryCount_lt m elfFile
  refine (List.length_filter_le _ _).trans ?_
  rw [List.length_map, List.length_range', numHeaders]
  omega

theorem length_calls_le (m : Memory) (elfFile codeBuffer : ℕ) :
    ((segments m elfFile).flatMap (segmentCalls codeBuffer)).length ≤
      kernelMemsz m elfFile + 65536 := by
  have key : ∀ hs : List ELF64ProgramHeader, (∀ h ∈ hs, h.Sized) →
      (hs.flatMap (segmentCalls codeBuffer)).length ≤ (hs.map (·.memsz)).sum + hs.length := by
    intro hs hz
    induction hs with
    | nil => exact le_rfl
    | cons h hs ih =>
      have h₁ := length_segmentCalls_le codeBuffer (hz h List.mem_cons_self)
      have h₂ := ih fun h hh => hz h (List.mem_cons_of_mem _ hh)
      rw [List.flatMap_cons, List.length_append, List.map_cons, List.sum_cons, List.length_cons]
      omega
  exact (key _ fun h hh => sized_of_mem_segments hh).trans
    (Nat.add_le_add_left (length_segments_le m elfFile) _)

theorem flatMap_tablePaths (m : Memory) (elfFile codeBuffer : ℕ) :
    (((segments m elfFile).flatMap (segmentCalls codeBuffer)).flatMap Call.tablePaths).toFinset =
      kernelTablePaths m elfFile := by
  rw [kernelTablePaths, List.flatMap_assoc]
  simp only [segmentCalls, List.flatMap_map]
  rfl

/-- The pages handed out in one boot: one, and one for every path. -/
theorem kernelTables_it (m₀ : Memory) (htotal : total ≤ 511 * 2 ^ 30)
    (hc : CopiesKeepHeaders m elfFile codeBuffer)
    (hw : ∀ h ∈ segments m elfFile, InWindow h) (hsum : kernelMemsz m elfFile ≤ codeBufferSize) :
    (kernelTables m₀ total m elfFile codeBuffer).it =
      0x21000 + 0x1000 * (kernelTablePaths m elfFile).card := by
  obtain ⟨own, ht⟩ := (refines_setupPhysicalMap m₀ total).tree
  have hit : (setupPhysicalMap (.boot m₀) total).it = 0x21000 := mapPhysicalMemory_it _ _
  have hcalls := kernelTrace_calls hc
  have hlen := length_calls_le m elfFile codeBuffer
  have hsegment : ∀ c ∈ (segments m elfFile).flatMap (segmentCalls codeBuffer),
      (c.Is4kb ∧ c.Aligned) ∧ l4Index c.va ≠ 0 ∧ l4Index c.va ≠ 256 := fun c hc => by
    obtain ⟨h, hh, hc⟩ := List.mem_flatMap.1 hc
    exact ⟨aligned_segmentCalls hc,
      (l4Index_segmentCalls (sized_of_mem_segments hh) (hw h hh) hc).2.2⟩
  have hok : PathsOk (setupPhysicalMap (.boot m₀) total)
      ((segments m elfFile).flatMap (segmentCalls codeBuffer)) := by
    refine pathsOk_of_smallPages ht (fun c hc => (hsegment c hc).1.1)
      (fun c hc => (hsegment c hc).1.2) (fun c hc => ?_) ?_
    · exact smallPages_start htotal (hsegment c hc).2.1 (hsegment c hc).2.2
    · rw [codeBufferSize] at hsum
      omega
  -- No path has a table yet, so that a page is taken for each.
  have hadd := runCalls_tablesAdded ht.anyLeaf (fun c hc => (hsegment c hc).1.1) hok.noHugeMet
    (hok.it_le ht.pool.2.2)
  rw [kernelTables, hcalls, hadd.it_eq, hit, flatMap_tablePaths, Finset.filter_true_of_mem]
  intro p hp
  rw [← flatMap_tablePaths m elfFile codeBuffer, List.mem_toFinset, List.mem_flatMap] at hp
  obtain ⟨c, hc, hp⟩ := hp
  obtain ⟨⟨⟨va, pa, rfl⟩, _⟩, h₀, h₁⟩ := hsegment c hc
  -- All paths begin with the index of the level 4.
  have hq : ∃ q, p = l4Index va :: q := by
    simp only [Call.tablePaths, Call.path, List.inits, List.map_cons, List.tail_cons] at hp
    simp at hp
    rcases hp with rfl | rfl | rfl <;> exact ⟨_, rfl⟩
  obtain ⟨q, rfl⟩ := hq
  exact not_hasTable_start htotal h₀ h₁ q

/-- The segments that are loaded are those of the table, and the first header in any case. -/
theorem segments_eq (m : Memory) (elfFile : ℕ) : segments m elfFile =
    if (readFileHeader m elfFile).programHeaderTableEntryCount = 0 then
      [programHeader m elfFile 0].filter (·.type = 1)
    else tableSegments m elfFile := by
  rw [segments, segmentsFrom, Nat.sub_zero, numHeaders, ← List.range_eq_range']
  split_ifs with h₀
  · rw [h₀]
    rfl
  · rw [Nat.max_eq_right (by omega), tableSegments]

/-- They are in the window and not too large if those of the table are so. -/
theorem segments_fit (hw : ∀ h ∈ tableSegments m elfFile, InWindow h)
    (hsum : ((tableSegments m elfFile).map (·.memsz)).sum ≤ codeBufferSize)
    (hfirst : FirstHeaderFits m elfFile) :
    (∀ h ∈ segments m elfFile, InWindow h) ∧ kernelMemsz m elfFile ≤ codeBufferSize := by
  rw [kernelMemsz, segments_eq]
  split_ifs with h₀
  · by_cases ht : (programHeader m elfFile 0).type = 1
    · obtain ⟨h₁, h₂⟩ := hfirst h₀ ht
      rw [List.filter_cons_of_pos (by simpa using ht)]
      exact ⟨List.forall_mem_singleton.2 h₁, by simpa using h₂⟩
    · rw [List.filter_cons_of_neg (by simpa using ht)]
      exact ⟨fun h hh => absurd hh List.not_mem_nil, Nat.zero_le _⟩
  · exact ⟨hw, hsum⟩

/-- A kernel whose segments are in the window of the kernel, and of at most 160 MB in all: the pool
    keeps off the stack if no segment is copied over the headers, the kernel needs at most 78
    tables, and what is in the place of the first header of an empty table is as the segments are.
    The number of tables is needed where the other two are so. -/
theorem poolBelowStack_iff (m₀ : Memory) (htotal : total ≤ 511 * 2 ^ 30)
    (hw : ∀ h ∈ tableSegments m elfFile, InWindow h)
    (hsum : ((tableSegments m elfFile).map (·.memsz)).sum ≤ codeBufferSize) :
    (CopiesKeepHeaders m elfFile codeBuffer ∧ FirstHeaderFits m elfFile ∧
        (kernelTablePaths m elfFile).card ≤ 78 →
      PoolBelowStack (kernelTables m₀ total m elfFile codeBuffer)) ∧
    (CopiesKeepHeaders m elfFile codeBuffer → FirstHeaderFits m elfFile →
      PoolBelowStack (kernelTables m₀ total m elfFile codeBuffer) →
      (kernelTablePaths m elfFile).card ≤ 78) := by
  have key : CopiesKeepHeaders m elfFile codeBuffer → FirstHeaderFits m elfFile →
      (PoolBelowStack (kernelTables m₀ total m elfFile codeBuffer) ↔
        (kernelTablePaths m elfFile).card ≤ 78) := fun hc hfirst => by
    obtain ⟨hw', hsum'⟩ := segments_fit hw hsum hfirst
    have hit := kernelTables_it m₀ htotal hc hw' hsum'
    rw [poolBelowStack_iff_it_le (by omega), hit]
    omega
  exact ⟨fun ⟨hc, hfirst, hcard⟩ => (key hc hfirst).2 hcard, fun hc hfirst => (key hc hfirst).1⟩

/-- The table of a file of one segment, without data. -/
theorem tableSegments_oneSegment {h : ELF64ProgramHeader} (hz : h.Sized) (ht : h.type = 1) :
    let m := oneSegment 0xFFFF80000A100000 h
    tableSegments m 0xFFFF80000A100000 = [h] ∧
      (readFileHeader m 0xFFFF80000A100000).programHeaderTableEntryCount ≠ 0 := by
  intro m
  have h₀ : (readFileHeader m 0xFFFF80000A100000).programHeaderTableEntryCount ≠ 0 := by
    rw [readFileHeader_oneSegment]
    decide
  refine ⟨?_, h₀⟩
  have hs : segments m 0xFFFF80000A100000 = [h] := segments_oneSegment (by decide) hz ht
  rwa [segments_eq, if_neg h₀] at hs

/-- Every region of 2 MB of a segment needs a table of its own. -/
theorem regions_le_card (hh : h ∈ segments m elfFile) (hs : h.Sized) (hw : InWindow h) {n : ℕ}
    (hn : 0x200000 * n < h.memsz + 0x200000) : n ≤ (kernelTablePaths m elfFile).card := by
  obtain ⟨hw₁, hw₂⟩ := hw
  have hpages : numPages h = h.memsz / 0x1000 + 1 := by rw [numPages_eq hs, if_pos (by omega)]
  have hva : ∀ j < n, pageVaddr h (512 * j) = h.vaddr + 0x200000 * j := fun j hj => by
    rw [pageVaddr]
    omega
  refine Finset.le_card_of_inj_on_range (fun j => (Call.map4kb (pageVaddr h (512 * j)) 0).path)
    (fun j hj => ?_) fun i hi j hj heq => ?_
  · rw [kernelTablePaths, List.mem_toFinset, List.mem_flatMap]
    refine ⟨h, hh, List.mem_flatMap.2 ⟨512 * j, ?_, ?_⟩⟩
    · rw [List.mem_range, hpages]
      omega
    · simp [Call.tablePaths, Call.path]
  · have hpre : (Call.map4kb (pageVaddr h (512 * i)) 0).path <+: indices (pageVaddr h (512 * j)) :=
      heq ▸ ⟨[l1Index (pageVaddr h (512 * j))], rfl⟩
    have hreg := indices_region_iff.1 hpre
    rw [hva i hi, hva j hj] at hreg
    omega

/-- A kernel of one page. -/
theorem poolBelowStack_page :
    let m := oneSegment 0xFFFF80000A100000 ⟨1, 0x1000, 0xFFFF900000000000, 0, 0xFFF, 0x1000⟩
    PoolBelowStack (kernelTables (fun _ => 0) (2 ^ 30) m 0xFFFF80000A100000
      0xFFFF800000100000) := by
  have hz : ELF64ProgramHeader.Sized ⟨1, 0x1000, 0xFFFF900000000000, 0, 0xFFF, 0x1000⟩ := by decide
  obtain ⟨hc, hs, _, _⟩ := oneSegment_ok hz rfl rfl
  obtain ⟨ht, h₀⟩ := tableSegments_oneSegment hz rfl
  refine (poolBelowStack_iff _ (by decide) (fun h hh => ?_) ?_).1
    ⟨hc, fun h => absurd h h₀, ?_⟩
  · rw [ht] at hh
    rw [List.mem_singleton.1 hh]
    exact ⟨by decide, by decide⟩
  · rw [ht]
    decide
  · rw [kernelTablePaths, hs]
    decide

/-- A kernel of 160 MB needs a table for each of its 81 regions of 2 MB. -/
theorem not_poolBelowStack_160mb :
    let m := oneSegment 0xFFFF80000A100000 ⟨1, 0x1000, 0xFFFF900000000000, 0, 0xA000000, 0x1000⟩
    ElfFile m 0xFFFF80000A100000 0x2000 ∧
      ((tableSegments m 0xFFFF80000A100000).map (·.memsz)).sum = codeBufferSize ∧
      (∀ h ∈ tableSegments m 0xFFFF80000A100000, InWindow h) ∧
      ¬PoolBelowStack (kernelTables (fun _ => 0) (2 ^ 30) m 0xFFFF80000A100000
        0xFFFF800000100000) := by
  have hz : ELF64ProgramHeader.Sized ⟨1, 0x1000, 0xFFFF900000000000, 0, 0xA000000, 0x1000⟩ := by
    decide
  obtain ⟨hc, hs, _, _⟩ := oneSegment_ok hz rfl rfl
  obtain ⟨ht, h₀⟩ := tableSegments_oneSegment hz rfl
  have hw : ∀ h ∈ tableSegments (oneSegment 0xFFFF80000A100000
      ⟨1, 0x1000, 0xFFFF900000000000, 0, 0xA000000, 0x1000⟩) 0xFFFF80000A100000, InWindow h := by
    intro h hh
    rw [ht] at hh
    rw [List.mem_singleton.1 hh]
    exact ⟨by decide, by decide⟩
  have hsum : ((tableSegments (oneSegment 0xFFFF80000A100000
      ⟨1, 0x1000, 0xFFFF900000000000, 0, 0xA000000, 0x1000⟩) 0xFFFF80000A100000).map
      (·.memsz)).sum = codeBufferSize := by
    rw [ht]
    rfl
  refine ⟨elfFile_oneSegment _ (by decide) (by decide), hsum, hw, fun hp => ?_⟩
  have htotal : 2 ^ 30 ≤ 511 * 2 ^ 30 := by decide
  obtain ⟨hw', hsum'⟩ := segments_fit hw hsum.le fun h => absurd h h₀
  have hit := kernelTables_it (fun _ => 0) htotal hc hw' hsum'
  rw [poolBelowStack_iff_it_le (by omega), hit] at hp
  have hle := regions_le_card (n := 79) (hs.symm ▸ List.mem_singleton_self _) hz
    ⟨by decide, by decide⟩ (by decide)
  omega

end pool

end Cboot
