import Cboot.Kernel.Pool

/-!
# The kernel in memory

The loader on the machine that it runs on (`bootMachine`): one physical memory, with the
file, the code buffer and the page tables in it. What it is to make of it is simpler: a
memory, and a map of virtual addresses that has nothing to do with it (`KernelImage`). The
loader on these (`imageMachine`) copies blocks at once and updates the map page by page.

* `Shows`: the memory and the tables of the first machine show those of the second;
* `Shows.memcpy`, `Shows.map4kbPage`: each operation keeps it so, and so do the segments
  (`Shows.foldl`), as long as the pool has room for the tables of the kernel;
* `mapKernel_shows`: so does the loader.
-/

namespace Cboot

open Radix

/-! ## The machines -/

/-- The memory that the pointers of the loader show. Those to low memory, and those to the map
    of physical memory, have the physical address in their low 47 bits. -/
def physicalView (m : Memory) : Memory := fun a => m (a % 2 ^ 47)

/-- The machine that the loader runs on. -/
def bootMachine : Machine PagingState where
  mem st := physicalView st.mem
  memcpy st dst src size := { st with mem := memcpy st.mem (dst % 2 ^ 47) (src % 2 ^ 47) size }
  map4kbPage st addr physicalAddress := map4kbPage st addr physicalAddress

/-- A physical memory, and a map of virtual addresses. -/
structure KernelImage where
  mem : Memory
  map : PageMap

/-- The machine of which the memory and the map are apart. -/
def imageMachine : Machine KernelImage where
  mem k := physicalView k.mem
  memcpy k dst src size := { k with mem := k.mem.copy (dst % 2 ^ 47) (src % 2 ^ 47) size }
  map4kbPage k addr physicalAddress :=
    { k with map := k.map.call (.map4kb addr physicalAddress) }

/-! ## Showing an image -/

/-- The address is one that the loader may use: in the first 2 MB, or in the map of physical
    memory. -/
def IsPointer (total a : ℕ) : Prop :=
  a < 2 ^ 21 ∨ 0xFFFF800000000000 ≤ a ∧ a < 0xFFFF800000000000 + numGigs total * 2 ^ 30

theorem IsPointer.l4Index_eq {total a : ℕ} (htotal : total ≤ 511 * 2 ^ 30)
    (ha : IsPointer total a) : l4Index a = 0 ∨ l4Index a = 256 := by
  have hn := numGigs_eq (show total < 2 ^ 63 by omega)
  rcases ha with ha | ⟨h₁, h₂⟩
  · exact .inl (Fin.ext (show a / 2 ^ 39 % 2 ^ 9 = 0 by omega))
  · obtain ⟨p, rfl⟩ := Nat.exists_eq_add_of_le h₁
    exact .inr (l4Index_physical (by omega))

/-- The image to start with: the memory `m`, and the map of physical memory. -/
def startImage (m : Memory) (total : ℕ) : KernelImage where
  mem := m
  map := pageWalk (setupPhysicalMap (.boot m) total).mem 0x1000

@[simp] theorem startImage_mem (m : Memory) (total : ℕ) : (startImage m total).mem = m := rfl

theorem startImage_map (m : Memory) (total : ℕ) : (startImage m total).map =
    pageWalk (setupPhysicalMap (.boot m) total).mem 0x1000 := by rw [startImage]

/-- The machine shows the image: the tables refine its map, and memory is the same but for
    the tables. Of these there are, besides those for the map of physical memory, tables for
    some of the paths, and they have no large pages there. -/
structure Shows (m : Memory) (total : ℕ) (paths : Finset (List (Fin 512))) (st : PagingState)
    (k : KernelImage) : Prop where
  refines : Refines st k.map
  mem : ∀ x, OffTables 0x6F000 x → st.mem x = k.mem x
  small : ∀ i, i ≠ 0 → i ≠ 256 → SmallPages st.mem i
  tables : ∃ P ⊆ paths, TablesAdded (setupPhysicalMap (.boot m) total) st P
  pointer : ∀ a, IsPointer total a → k.map a = some ⟨a % 2 ^ 47, true⟩

section tables

variable {m' : Memory} {st : PagingState} {own : Owners}

/-- Which tables there are only depends on the bytes of the tables. -/
theorem PageTree.hasTable_congr (ht : PageTree st.mem st.it own)
    (h : ∀ x, 0x1000 ≤ x ∧ x < 0x5000 ∨ 0x20000 ≤ x ∧ x < st.it → m' x = st.mem x)
    {p : List (Fin 512)} (hp : p.length ≤ 3) : HasTable m' p ↔ HasTable st.mem p := by
  rw [HasTable, HasTable, ht.tables.owned.table_congr (by omega)]
  intro t q i r hown _
  rw [entries, entries, ht.tables.tableEntry_congr h hown]

theorem PageTree.smallPages_congr (ht : PageTree st.mem st.it own)
    (h : ∀ x, 0x1000 ≤ x ∧ x < 0x5000 ∨ 0x20000 ≤ x ∧ x < st.it → m' x = st.mem x)
    {i : Fin 512} (hs : SmallPages st.mem i) : SmallPages m' i := by
  intro q hit hq hw
  rw [ht.tables.walk_congr h (by rw [List.length_cons, hq])] at hw
  exact hs q hit hq hw

/-- With tables for at most 78 paths, the pool stays below the stack. -/
theorem it_le_of_tablesAdded {m : Memory} {total : ℕ} {paths : Finset (List (Fin 512))}
    (h : ∃ P ⊆ paths, TablesAdded (setupPhysicalMap (.boot m) total) st P)
    (hpaths : paths.card ≤ 78) : st.it ≤ 0x6F000 := by
  obtain ⟨P, hP, ha⟩ := h
  have hit : (setupPhysicalMap (.boot m) total).it = 0x21000 := mapPhysicalMemory_it _ _
  have hcard := (Finset.card_filter_le P fun p =>
    ¬HasTable (setupPhysicalMap (.boot m) total).mem p).trans (Finset.card_le_card hP)
  rw [ha.it_eq, hit]
  omega

/-- The map of physical memory leaves memory, but for the tables, as it was. -/
theorem setupPhysicalMap_of_offTables (m : Memory) (total : ℕ) {x : ℕ}
    (hx : OffTables 0x6F000 x) : (setupPhysicalMap (.boot m) total).mem x = m x := by
  obtain ⟨h₁, h₂⟩ := hx
  have ht := pageTree_start m
  have hit : (mapPhysicalMemory (.boot m) (numGigs total)).it = 0x21000 := mapPhysicalMemory_it _ _
  have hoff : OffTables (mapPhysicalMemory (.boot m) (numGigs total)).it x := ⟨h₁, by omega⟩
  rw [setupPhysicalMap, (tablesOnly_mapPhysicalMemory ht _).frame x hoff, PagingState.boot]
  exact setupAndEnablePaging_of_not_mem (by omega)

/-- Pointers are translated to their low bits. -/
theorem pageWalk_setupPhysicalMap (m : Memory) {total a : ℕ} (htotal : total ≤ 511 * 2 ^ 30)
    (ha : IsPointer total a) :
    pageWalk (setupPhysicalMap (.boot m) total).mem 0x1000 a = some ⟨a % 2 ^ 47, true⟩ := by
  have hn := numGigs_eq (show total < 2 ^ 63 by omega)
  rcases ha with ha | ⟨h₁, h₂⟩
  · have h : pageWalk (runCalls (setupPhysicalMap (.boot m) total) []).mem 0x1000 a =
        some ⟨a, true⟩ := pageWalk_low htotal trivial ha
    rw [runCalls, List.foldl_nil] at h
    rw [Nat.mod_eq_of_lt (by omega), h]
  · obtain ⟨p, rfl⟩ := Nat.exists_eq_add_of_le h₁
    have hp : (0xFFFF800000000000 + p) % 2 ^ 47 = p := by omega
    rw [hp]
    exact pageWalk_of_mapsPhysical m (by omega) (by omega) (by omega)

end tables

namespace Shows

variable {m : Memory} {total : ℕ} {paths : Finset (List (Fin 512))} {st : PagingState}
  {k : KernelImage}

/-- The pool stays below the stack. -/
theorem it_le (h : Shows m total paths st k) (hpaths : paths.card ≤ 78) : st.it ≤ 0x6F000 :=
  it_le_of_tablesAdded h.tables hpaths

/-- At first, the map is that of physical memory. -/
theorem start (htotal : total ≤ 511 * 2 ^ 30) (paths : Finset (List (Fin 512))) :
    Shows m total paths (setupPhysicalMap (.boot m) total) (startImage m total) := by
  have hr := refines_setupPhysicalMap m total
  have hm : ∀ x, OffTables 0x6F000 x → (setupPhysicalMap (.boot m) total).mem x = m x :=
    fun _ hx => setupPhysicalMap_of_offTables m total hx
  have hs : ∀ i, i ≠ 0 → i ≠ 256 → SmallPages (setupPhysicalMap (.boot m) total).mem i :=
    fun _ h₀ h₁ => smallPages_start htotal h₀ h₁
  have ht := TablesAdded.refl (setupPhysicalMap (.boot m) total)
  have hp : ∀ a, IsPointer total a →
      pageWalk (setupPhysicalMap (.boot m) total).mem 0x1000 a = some ⟨a % 2 ^ 47, true⟩ :=
    fun _ ha => pageWalk_setupPhysicalMap m htotal ha
  rw [← startImage_map] at hr hp
  exact ⟨hr, hm, hs, ⟨∅, Finset.empty_subset _, ht⟩, hp⟩

/-- Copying a block elsewhere than to the tables. -/
theorem memcpy (h : Shows m total paths st k) (hpaths : paths.card ≤ 78) {dst src n : ℕ}
    (hdst : 0x6F000 ≤ dst) (hsrc : 0x6F000 ≤ src) (hov : dst ≤ src ∨ src + n ≤ dst) :
    Shows m total paths { st with mem := Cboot.memcpy st.mem dst src n }
      { k with mem := k.mem.copy dst src n } := by
  have hit := h.it_le hpaths
  obtain ⟨own, ht⟩ := h.refines.tree
  have hkeep : ∀ x, 0x1000 ≤ x ∧ x < 0x5000 ∨ 0x20000 ≤ x ∧ x < st.it →
      Cboot.memcpy st.mem dst src n x = st.mem x := fun x hx => memcpy_frame _ _ (by omega)
  refine ⟨⟨⟨own, ht.congr hkeep⟩, fun v => ?_⟩, fun x hx => ?_,
    fun i h₀ h₁ => ht.smallPages_congr hkeep (h.small i h₀ h₁), ?_, h.pointer⟩
  · rw [← h.refines.walk v, pageWalk, pageWalk, ht.tables.walk_congr hkeep (length_indices v)]
  · -- Both the source and the destination are above the tables.
    simp only [memcpy_eq_copy st.mem hov, Memory.copy]
    split
    · exact h.mem _ ⟨by omega, by omega⟩
    · exact h.mem x hx
  · obtain ⟨P, hP, ha⟩ := h.tables
    refine ⟨P, hP, ha.le_three, fun p hp => ?_, ha.it_eq⟩
    rw [ht.hasTable_congr hkeep hp, ha.hasTable_iff p hp]

/-- Mapping a page of the kernel. -/
theorem map4kbPage (h : Shows m total paths st k) (htotal : total ≤ 511 * 2 ^ 30)
    (hpaths : paths.card ≤ 78) {va pa : ℕ} (ha : (Call.map4kb va pa).Aligned)
    (hva : 2 ^ 21 ≤ va % 2 ^ 48) (h₀ : l4Index va ≠ 0) (h₁ : l4Index va ≠ 256)
    (hP : (Call.map4kb va pa).tablePaths.toFinset ⊆ paths) :
    Shows m total paths (Cboot.map4kbPage st va pa)
      { k with map := k.map.call (.map4kb va pa) } := by
  have hit := h.it_le hpaths
  obtain ⟨own, ht⟩ := h.refines.tree
  have hh : ¬HugeOnPath st.mem (Call.map4kb va pa).path 0x1000 := (h.small _ h₀ h₁).not_huge ht
  have hit₅₂ : (Cboot.map4kbPage st va pa).it ≤ 2 ^ 52 :=
    (Call.run_it_le st (.map4kb va pa)).trans (by omega)
  obtain ⟨P, hPs, hadd⟩ := h.tables
  have htables : ∃ P ⊆ paths, TablesAdded (setupPhysicalMap (.boot m) total)
      (Cboot.map4kbPage st va pa) P :=
    ⟨_, Finset.union_subset hPs hP,
      hadd.trans (Call.run_tablesAdded ht.tables ⟨va, pa, rfl⟩ hh hit₅₂).1⟩
  have hit' := it_le_of_tablesAdded htables hpaths
  have hframe : TablesOnly st (Cboot.map4kbPage st va pa) := by
    obtain ⟨_, _, _, hf⟩ := Call.run_spec ht hh ha hit₅₂
    exact hf
  refine ⟨h.refines.run ⟨ha, hva, hh, hit'⟩, fun x hx => ?_, fun i hi₀ hi₁ => ?_, htables,
    fun a hp => ?_⟩
  · exact (hframe.frame x ⟨hx.1, fun h => hx.2 ⟨h.1, h.2.trans_le hit'⟩⟩).trans (h.mem x hx)
  · exact (h.small i hi₀ hi₁).run ht ⟨va, pa, rfl⟩ ha hh hit₅₂
  · -- A page with another index of the level 4 is not the one of a pointer.
    have hout : ¬(Call.map4kb va pa).Covers a := fun hc => by
      have hl := (List.cons.inj (indices_eq_iff.2 hc)).1
      rcases hp.l4Index_eq htotal with hp | hp
      · exact h₀ (hl.symm.trans hp)
      · exact h₁ (hl.symm.trans hp)
    exact (if_neg hout).trans (h.pointer a hp)

end Shows

/-! ## The segments -/

/-- The code buffer of `size` bytes at the physical address `c`, and the file of `len` bytes at
    `e`: two places in the map of physical memory, above the tables and the stack. The buffer
    is zero, and holds as much as the file. -/
structure ImageLayout (m : Memory) (total c size e len : ℕ) : Prop where
  total_le : total ≤ 511 * 2 ^ 30
  aligned : c % 0x1000 = 0
  buffer : 0x6F000 ≤ c ∧ c + size ≤ numGigs total * 2 ^ 30
  file : 0x6F000 ≤ e ∧ e + len ≤ numGigs total * 2 ^ 30
  disjoint : c + size ≤ e ∨ e + len ≤ c
  zero : ∀ x, c ≤ x → x < c + size → m x = 0
  len_le : len ≤ size
  elf : ElfFile (physicalView m) (0xFFFF800000000000 + e) len

/-- The segment comes from a file of `len` bytes, not from its first page, has the alignment
    of a page, and is in the window of the kernel. Its offset is one of the code buffer, even
    if there are no data. -/
structure Loadable (size len : ℕ) (h : ELF64ProgramHeader) : Prop where
  align : h.align = 0x1000
  offset : 0x1000 ≤ h.offset ∧ h.offset ≤ size
  data : h.filesz = 0 ∨ h.offset + h.filesz ≤ len
  window : InWindow h

/-- The paths of the tables for the kernel that is in the file at the physical address `e`. -/
def imagePaths (m : Memory) (e : ℕ) : Finset (List (Fin 512)) :=
  kernelTablePaths (physicalView m) (0xFFFF800000000000 + e)

/-- The segments of the file at the physical address `e`. -/
def imageSegments (m : Memory) (e : ℕ) : List ELF64ProgramHeader :=
  segments (physicalView m) (0xFFFF800000000000 + e)

section segments

variable {m : Memory} {total c size e len : ℕ} {h : ELF64ProgramHeader} {st : PagingState}
  {k : KernelImage}

theorem ImageLayout.lt (hl : ImageLayout m total c size e len) :
    c + size < 2 ^ 39 ∧ e + len < 2 ^ 39 := by
  have hn := numGigs_eq (show total < 2 ^ 63 by have := hl.total_le; omega)
  have := hl.total_le
  have := hl.buffer
  have := hl.file
  omega

/-- Where the data of a segment goes, in physical memory. -/
theorem segmentData_physical (hl : ImageLayout m total c size e len) (hh : Loadable size len h) :
    segmentData (0xFFFF800000000000 + c) h % 2 ^ 47 = c + (h.offset - 0x1000) := by
  have := hl.lt
  have := hh.offset
  rw [segmentData, hh.align]
  omega

/-- Where it comes from. -/
theorem fileData_physical (hl : ImageLayout m total c size e len) (hh : Loadable size len h) :
    (0xFFFF800000000000 + e + h.offset) % 2 ^ 64 % 2 ^ 47 = e + h.offset := by
  have := hl.lt
  have := hh.offset
  omega

/-- The frame of the segment: the page of its data. -/
theorem segmentFrame_physical (hl : ImageLayout m total c size e len) (hh : Loadable size len h) :
    segmentFrame (0xFFFF800000000000 + c) h = c + (h.offset / 0x1000 * 0x1000 - 0x1000) := by
  have := hl.lt
  have := hl.aligned
  have := hh.offset
  rw [segmentFrame_eq, segmentData, hh.align]
  omega

theorem tablePaths_subset (hh : h ∈ imageSegments m e) {i : ℕ} (hi : i < numPages h) (pa : ℕ) :
    (Call.map4kb (pageVaddr h i) pa).tablePaths.toFinset ⊆ imagePaths m e := by
  intro p hp
  rw [imagePaths, kernelTablePaths, List.mem_toFinset, List.mem_flatMap]
  exact ⟨h, hh, List.mem_flatMap.2 ⟨i, List.mem_range.2 hi, List.mem_toFinset.1 hp⟩⟩

/-- Copying the data of a segment. -/
theorem Shows.copySegment (hl : ImageLayout m total c size e len) (hh : Loadable size len h)
    (hpaths : (imagePaths m e).card ≤ 78) (hs : Shows m total (imagePaths m e) st k) :
    Shows m total (imagePaths m e)
      (copySegment bootMachine (0xFFFF800000000000 + e) (0xFFFF800000000000 + c) st h)
      (copySegment imageMachine (0xFFFF800000000000 + e) (0xFFFF800000000000 + c) k h) := by
  have hbuffer := hl.buffer
  have hfile := hl.file
  have hdata := hh.data
  have hoffset := hh.offset
  have hdisjoint := hl.disjoint
  have hlen := hl.len_le
  rw [Cboot.copySegment, Cboot.copySegment]
  simp only [bootMachine, imageMachine, segmentData_physical hl hh, fileData_physical hl hh]
  exact hs.memcpy hpaths (by omega) (by omega) (by omega)

/-- Mapping a page of a segment. -/
theorem Shows.mapSegmentPage (hl : ImageLayout m total c size e len)
    (hmem : h ∈ imageSegments m e) (hh : Loadable size len h)
    (hpaths : (imagePaths m e).card ≤ 78) {i : ℕ} (hi : i < numPages h)
    (hs : Shows m total (imagePaths m e) st k) :
    Shows m total (imagePaths m e)
      (mapSegmentPage bootMachine (0xFFFF800000000000 + c) h st i)
      (mapSegmentPage imageMachine (0xFFFF800000000000 + c) h k i) := by
  have hc : Call.map4kb (pageVaddr h i) (segmentFrame (0xFFFF800000000000 + c) h) ∈
      segmentCalls (0xFFFF800000000000 + c) h := List.mem_map.2 ⟨i, List.mem_range.2 hi, rfl⟩
  obtain ⟨hva, hva', h₀, h₁⟩ := l4Index_segmentCalls (sized_of_mem_segments hmem) hh.window hc
  have hlow : 2 ^ 21 ≤ pageVaddr h i % 2 ^ 48 := by
    rw [Call.va] at hva hva'
    omega
  exact hs.map4kbPage hl.total_le hpaths (aligned_segmentCalls hc).2 hlow h₀ h₁
    (tablePaths_subset hmem hi _)

/-- Loading a segment. -/
theorem Shows.loadSegment (hl : ImageLayout m total c size e len)
    (hmem : h ∈ imageSegments m e) (hh : Loadable size len h)
    (hpaths : (imagePaths m e).card ≤ 78) (hs : Shows m total (imagePaths m e) st k) :
    Shows m total (imagePaths m e)
      (loadSegment bootMachine (0xFFFF800000000000 + e) (0xFFFF800000000000 + c) st h)
      (loadSegment imageMachine (0xFFFF800000000000 + e) (0xFFFF800000000000 + c) k h) := by
  have key : ∀ n ≤ numPages h, Shows m total (imagePaths m e)
      ((List.range n).foldl (Cboot.mapSegmentPage bootMachine (0xFFFF800000000000 + c) h)
        (Cboot.copySegment bootMachine (0xFFFF800000000000 + e) (0xFFFF800000000000 + c) st h))
      ((List.range n).foldl (Cboot.mapSegmentPage imageMachine (0xFFFF800000000000 + c) h)
        (Cboot.copySegment imageMachine (0xFFFF800000000000 + e) (0xFFFF800000000000 + c)
          k h)) := by
    intro n hn
    induction n with
    | zero => exact hs.copySegment hl hh hpaths
    | succ n ih =>
      rw [List.range_succ, List.foldl_append, List.foldl_append]
      exact (ih (Nat.le_of_succ_le hn)).mapSegmentPage hl hmem hh hpaths hn
  exact key _ le_rfl

/-- Loading segments. -/
theorem Shows.foldl (hl : ImageLayout m total c size e len)
    (hpaths : (imagePaths m e).card ≤ 78) {hs : List ELF64ProgramHeader}
    (hmem : ∀ h ∈ hs, h ∈ imageSegments m e ∧ Loadable size len h)
    (hst : Shows m total (imagePaths m e) st k) :
    Shows m total (imagePaths m e)
      (hs.foldl (Cboot.loadSegment bootMachine (0xFFFF800000000000 + e)
        (0xFFFF800000000000 + c)) st)
      (hs.foldl (Cboot.loadSegment imageMachine (0xFFFF800000000000 + e)
        (0xFFFF800000000000 + c)) k) := by
  induction hs generalizing st k with
  | nil => exact hst
  | cons h hs ih =>
    obtain ⟨hh₁, hh₂⟩ := hmem h List.mem_cons_self
    exact ih (fun h hh => hmem h (List.mem_cons_of_mem _ hh)) (hst.loadSegment hl hh₁ hh₂ hpaths)

end segments

/-! ## The loader -/

section loader

variable {m : Memory} {total c size e len : ℕ}

/-- The state after `map_kernel`, for the file at the physical address `e` and the code buffer
    at `c`. -/
def kernelState (st : PagingState) (e c : ℕ) : PagingState :=
  (mapKernel bootMachine st (0xFFFF800000000000 + e) (0xFFFF800000000000 + c) 0).1

/-- The image of the segments of the file. -/
def kernelImage (m : Memory) (total e c : ℕ) : KernelImage :=
  (imageSegments m e).foldl (loadSegment imageMachine (0xFFFF800000000000 + e)
    (0xFFFF800000000000 + c)) (startImage m total)

/-- The copies keep off the file. -/
theorem copySegment_file (hl : ImageLayout m total c size e len) {h : ELF64ProgramHeader}
    (hh : Loadable size len h) (k : KernelImage) {x : ℕ} (h₁ : e ≤ x) (h₂ : x < e + len) :
    (copySegment imageMachine (0xFFFF800000000000 + e) (0xFFFF800000000000 + c) k h).mem x =
      k.mem x := by
  have hdata := hh.data
  have hoffset := hh.offset
  have hdisjoint := hl.disjoint
  have hlen := hl.len_le
  rw [copySegment]
  simp only [imageMachine, segmentData_physical hl hh]
  exact Memory.copy_of_not_mem (by omega)

/-- While the segments are loaded, the machine shows an image with the file in it. -/
theorem loadInvariant_shows (hl : ImageLayout m total c size e len)
    (hs : ∀ h ∈ imageSegments m e, Loadable size len h)
    (hpaths : (imagePaths m e).card ≤ 78) :
    LoadInvariant bootMachine (0xFFFF800000000000 + e) (0xFFFF800000000000 + c) (physicalView m)
      (fun st => ∃ k, Shows m total (imagePaths m e) st k ∧
        ∀ x, e ≤ x → x < e + len → k.mem x = m x)
      (fun _ => False) (fun _ => False) where
  kept := by
    rintro st ⟨k, hst, hk⟩
    refine hl.elf.headersKept fun a h₁ h₂ => ?_
    have := hl.lt
    have := hl.file
    obtain ⟨y, rfl⟩ := Nat.exists_eq_add_of_le h₁
    have hy : (0xFFFF800000000000 + e + y) % 2 ^ 47 = e + y := by omega
    simp only [bootMachine, physicalView, hy]
    exact (hst.mem _ ⟨by omega, by omega⟩).trans (hk _ (by omega) (by omega))
  copy := by
    rintro st h ⟨k, hst, hk⟩ hh
    exact .inl ⟨_, hst.copySegment hl (hs h hh) hpaths, fun x h₁ h₂ =>
      (copySegment_file hl (hs h hh) k h₁ h₂).trans (hk x h₁ h₂)⟩
  map := by
    rintro st h i ⟨k, hst, hk⟩ hh hi
    exact .inl ⟨_, hst.mapSegmentPage hl hh (hs h hh) hpaths hi, hk⟩
  memcpy_of_bad := fun _ _ _ h => h
  map4kbPage_of_bad := fun _ _ h => h

/-- After the loader, the machine shows the image of the segments. -/
theorem mapKernel_shows (hl : ImageLayout m total c size e len)
    (hs : ∀ h ∈ imageSegments m e, Loadable size len h)
    (hpaths : (imagePaths m e).card ≤ 78) :
    Shows m total (imagePaths m e) (kernelState (setupPhysicalMap (.boot m) total) e c)
      (kernelImage m total e c) := by
  have hstart := Shows.start (m := m) hl.total_le (imagePaths m e)
  rw [kernelState]
  rcases (loadInvariant_shows hl hs hpaths).mapKernel_cases ⟨_, hstart, fun _ _ _ => rfl⟩ 0 with
    ⟨_, heq⟩ | ⟨hf, _⟩
  · rw [heq]
    exact hstart.foldl hl hpaths fun h hh => ⟨hh, hs h hh⟩
  · exact hf.elim

end loader

end Cboot
