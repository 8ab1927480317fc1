import Cboot.Handover

/-!
# How the boot sequence ends

What becomes of `cboot_main` on any disk and with any memory, told by what is on the disk:

* it ends if and only if the search for the partition gets on, and the walks for the file end, as
  far as the sequence gets without a fault (`boot_ends_iff`);
* it enters a kernel if and only if nothing faults, there is memory, and what is found there can be
  entered (`boot_enters_iff`).
-/

namespace Cboot

open AtaDevice Fueled

variable {d : AtaDevice} {st : PagingState} {m stack : Memory} {buffer name path base mapped : ℕ}
  {gpte : GPTEntry} {inspected : List ℕ} {scanned rs : List BiosMemoryRegion}

/-! ## The end -/

/-- The walk for the file ends, if the sequence gets to it: if there is memory for the kernel, which
    is in the map of physical memory. -/
def LoadEnds (disk : ℕ → Memory) (scanned rs : List BiosMemoryRegion) (gpte : GPTEntry) : Prop :=
  ∀ r, firstFit rs 268435456 = some r →
    r.baseAddress.toNat + 268435456 ≤ numGigs (freeMemory scanned).toNat * 2 ^ 30 →
      ∃ s, StopsAt disk gpte numSectorsU32 kernelPath 0 s

/-- With memory that is mapped, the loading of the kernel ends if and only if the walk for the file
    does, and with other memory it ends with a fault. -/
theorem loadKernel_ends_iff (hl : d.Live)
    (hp : CString (st.mem.fill base 268435456 0) path kernelPath)
    (hbase : base + 268435456 < 2 ^ 47)
    (hset : base + 268435456 ≤ mapped ∧
        Virtual.memset st.mem (0xFFFF800000000000 + base) 0 268435456 =
          .ok (st.mem.fill base 268435456 0) ∨
      ¬base + 268435456 ≤ mapped ∧
        ∃ v, Virtual.memset st.mem (0xFFFF800000000000 + base) 0 268435456 = .error v) :
    (∃ a, (loadKernel ports d st gpte path (0xFFFF800000000000 + base)).Returns a) ↔
      (base + 268435456 ≤ mapped → ∃ s, StopsAt d.disk gpte numSectorsU32 kernelPath 0 s) := by
  rcases hset with ⟨hmapped, hset⟩ | ⟨hnot, hset⟩
  · constructor
    · rintro ⟨a, h⟩ _
      obtain ⟨events, henter, _⟩ := (loadKernel_mapped hset (by omega)).1 h
      exact stopsAt_of_enterKernel hl hp henter
    · intro h
      obtain ⟨s, hs⟩ := h hmapped
      obtain ⟨d', events, entered, henter, _⟩ := enterKernel_spec hl hp hbase hmapped hs
      exact ⟨(d', _, entered), (loadKernel_mapped hset (by omega)).2 ⟨events, henter, rfl⟩⟩
  · refine iff_of_true ?_ fun h => absurd h hnot
    obtain ⟨events, h, _⟩ := loadKernel_unmapped ports d gpte path hset
    exact ⟨_, h⟩

/-- After the searches, the sequence ends if and only if the last walk does. -/
theorem cbootMain_ends_iff (hl : d.Live) (hm : BootLayout m path scanned rs)
    (h : SearchesEnd d.disk stack m buffer name scanned gpte inspected) :
    (∃ a, (cbootMain ports d (.boot m) stack buffer name path).Returns a) ↔
      LoadEnds d.disk scanned rs gpte := by
  obtain ⟨d', hl', hdisk, hmain⟩ := cbootMain_returns_iff hl hm h
  have hload : (∃ a, (cbootMain ports d (.boot m) stack buffer name path).Returns a) ↔
      ∃ a, (loadKernel ports d' (setupPhysicalMap (.boot m) (freeMemory scanned).toNat) gpte path
        (allocated (firstFit rs 268435456))).Returns a := by
    constructor
    · rintro ⟨a, ha⟩
      obtain ⟨events, hload, _⟩ := (hmain a).1 ha
      exact ⟨_, hload⟩
    · rintro ⟨⟨d'', events, entered⟩, hload⟩
      exact ⟨_, (hmain (d'', _, entered)).2 ⟨events, hload, rfl⟩⟩
  rw [hload, LoadEnds]
  cases hfirst : firstFit rs 268435456 with
  | none =>
    obtain ⟨events, hnull, _⟩ := loadKernel_null ports d'
      (setupPhysicalMap (.boot m) (freeMemory scanned).toNat) gpte path
    exact iff_of_true ⟨_, hnull⟩ fun r hr => absurd hr (by simp)
  | some r =>
    obtain ⟨hkaddr, _⟩ := allocated_firstFit hm hfirst
    obtain ⟨hp, hset⟩ := clear_cases hm h.mappable hfirst
    rw [← hfirst, hkaddr, loadKernel_ends_iff hl' hp (hm.physical r hfirst) hset, hdisk]
    constructor
    · intro hends r' hr'
      obtain rfl := Option.some.inj (hfirst.symm.trans hr')
      exact hends
    · exact fun hends => hends r hfirst

/-- The sequence ends if and only if the partition table and the archive let it: the entries have a
    size, or the first one is not in use, and the headers that the two walks come by have an end.
    The walks do not matter if something faults before, as the search does where it leaves low
    memory. -/
theorem boot_ends_iff (hl : d.Live) (hm : BootLayout m path scanned rs) (stack : Memory)
    (name : ℕ) (hbuffer : buffer + 4096 ≤ 2 ^ 21) :
    (∃ a, (cbootMain ports d (.boot m) stack buffer name path).Returns a) ↔
      (entrySize d.disk ≠ 0 ∨ NullEntryAt (entryArray d.disk) 0) ∧
        ∀ gpte inspected, SearchEnds d.disk stack (PagingState.boot m).mem buffer name gpte
          inspected → Mappable scanned →
            (∃ r, StopsAt d.disk gpte numSectorsU64 kernelPath 0 r) ∧
              LoadEnds d.disk scanned rs gpte := by
  rw [← Virtual.search_ends_iff hl stack m name hbuffer]
  constructor
  · rintro ⟨a, ha⟩
    refine ⟨search_of_cbootMain hm ha, fun gpte inspected hends hmap => ?_⟩
    have hsearch := searchesEnd_of_cbootMain hl hm ha hends hmap
    exact ⟨hsearch.stop, (cbootMain_ends_iff hl hm hsearch).1 ⟨a, ha⟩⟩
  · rintro ⟨⟨⟨d', found⟩, hfound⟩, hwalks⟩
    cases found with
    | error v => exact ⟨_, cbootMain_search_faults hm hfound⟩
    | ok found =>
      obtain ⟨gpte, inspected⟩ := found
      have hends := searchEnds_of_returns hl hfound
      by_cases hmap : Mappable scanned
      · obtain ⟨hstop, hload⟩ := hwalks gpte inspected hends hmap
        exact (cbootMain_ends_iff hl hm ⟨hends, hmap, hstop⟩).2 hload
      · obtain ⟨d', v, hfault⟩ := cbootMain_test_faults hl hm hends hmap
        exact ⟨_, hfault⟩

/-- On a disk of zeros, it ends with 1 GB of memory. -/
theorem boot_ends_iff_zeros :
    ∃ a, (cbootMain ports (driveOf fun _ _ => 0)
      (.boot (bootMemory ⟨0x100000, 0x40000000, 1, 0⟩)) (fun _ => 0) 0x6E000 0 0x8000).Returns
        a := by
  have hm : BootLayout (bootMemory ⟨0x100000, 0x40000000, 1, 0⟩) 0x8000
      [⟨0x100000, 0x40000000, 1, 0⟩] [⟨0x100000, 0x40000000, 1, 0⟩] :=
    bootLayout_one (by decide) (by decide) (by decide)
  have hsearch : SearchesEnd _ _ _ 0x6E000 0 [⟨0x100000, 0x40000000, 1, 0⟩] _ _ :=
    zeros_searchesEnd (fun _ => 0) (bootMemory ⟨0x100000, 0x40000000, 1, 0⟩) 0 (by decide)
      (by decide)
  refine (boot_ends_iff (live_driveOf _) hm _ _ (by decide)).2 ⟨.inr fun _ _ => rfl, ?_⟩
  exact fun gpte _ _ _ => ⟨⟨none, zeros_stopsAt _ _⟩, fun _ _ _ => ⟨none, zeros_stopsAt _ _⟩⟩

/-! ## The kernel -/

/-- A kernel is entered in a run of the sequence. -/
def EntersKernel (d : AtaDevice) (st : PagingState) (stack : Memory) (buffer name path : ℕ) :
    Prop :=
  ∃ d' log entered, (cbootMain ports d st stack buffer name path).Returns (d', log, entered) ∧
    ∃ entryPoint, .kernelEntered entryPoint ∈ log

/-- After the searches, a kernel is entered if and only if there is memory, and what is found there
    can be entered. -/
theorem entersKernel_of_searchesEnd (hl : d.Live) (hm : BootLayout m path scanned rs)
    (h : SearchesEnd d.disk stack m buffer name scanned gpte inspected) :
    EntersKernel d (.boot m) stack buffer name path ↔
      ∃ r, firstFit rs 268435456 = some r ∧
        CanEnter d.disk (setupPhysicalMap (.boot m) (freeMemory scanned).toNat)
          (numGigs (freeMemory scanned).toNat * 2 ^ 30) gpte r.baseAddress.toNat := by
  obtain ⟨d', hl', hdisk, hmain⟩ := cbootMain_returns_iff hl hm h
  cases hfirst : firstFit rs 268435456 with
  | none =>
    refine iff_of_false ?_ fun ⟨r, hr, _⟩ => absurd hr (by simp)
    rintro ⟨d'', log, entered, hreturns, entryPoint, hentered⟩
    obtain ⟨events, hload, hlog⟩ := (hmain _).1 hreturns
    obtain ⟨events', hnull, hnot, _⟩ := loadKernel_null ports d'
      (setupPhysicalMap (.boot m) (freeMemory scanned).toNat) gpte path
    rw [hfirst] at hload
    obtain ⟨rfl, _⟩ := Prod.mk.inj (Prod.mk.inj (hload.unique hnull)).2
    obtain rfl : log = _ := hlog
    simp only [List.mem_cons, reduceCtorEq, false_or] at hentered
    exact absurd hentered (hnot entryPoint)
  | some r =>
    obtain ⟨hkaddr, _⟩ := allocated_firstFit hm hfirst
    obtain ⟨hp, hset⟩ := clear_cases hm h.mappable hfirst
    have hend := hm.physical r hfirst
    rw [hkaddr] at hmain
    rw [← hdisk]
    constructor
    · rintro ⟨d'', log, entered, hreturns, entryPoint, hentered⟩
      obtain ⟨events, hload, hlog⟩ := (hmain _).1 hreturns
      rcases loadKernel_spec hl' hp hend hset hload with ⟨_, hnot⟩ | ⟨hcan, _⟩
      · obtain rfl : log = _ := hlog
        simp only [List.mem_cons, reduceCtorEq, false_or] at hentered
        exact absurd hentered (hnot.1 entryPoint)
      · exact ⟨r, rfl, hcan⟩
    · rintro ⟨r', hr', hcan⟩
      obtain rfl := Option.some.inj hr'
      obtain ⟨⟨d'', events, entered⟩, hload⟩ :=
        loadKernel_returns_of_canEnter hl' hp hend hset hcan
      rcases loadKernel_spec hl' hp hend hset hload with ⟨hnot, _⟩ | ⟨_, entryPoint, _, _, hevents⟩
      · exact absurd hcan hnot
      · obtain rfl : events = _ := hevents
        exact ⟨d'', _, entered, (hmain (d'', _, entered)).2 ⟨_, hload, rfl⟩, entryPoint, by simp⟩

/-- A kernel is entered if and only if the searches end without a fault, there is a region that
    fits, and what is found there can be entered: the region is in the map of physical memory, the
    archive of what is taken for the partition has an ELF file of the path, and the loader gets
    through it. -/
theorem boot_enters_iff (hl : d.Live) (hm : BootLayout m path scanned rs) (stack : Memory)
    (buffer name : ℕ) : EntersKernel d (.boot m) stack buffer name path ↔
      ∃ gpte inspected, SearchesEnd d.disk stack m buffer name scanned gpte inspected ∧
        ∃ r, firstFit rs 268435456 = some r ∧
          CanEnter d.disk (setupPhysicalMap (.boot m) (freeMemory scanned).toNat)
            (numGigs (freeMemory scanned).toNat * 2 ^ 30) gpte r.baseAddress.toNat := by
  constructor
  · intro h
    obtain ⟨d', log, entered, hreturns, entryPoint, hentered⟩ := id h
    rcases cbootMain_cases hl hm hreturns with
      ⟨v, hfault⟩ | ⟨_, _, v, hfault⟩ | ⟨gpte, inspected, hsearch⟩
    · obtain rfl : log = _ := hfault
      exact absurd hentered (by simp)
    · obtain rfl : log = _ := hfault
      exact absurd hentered (by simp)
    · exact ⟨gpte, inspected, hsearch, (entersKernel_of_searchesEnd hl hm hsearch).1 h⟩
  · rintro ⟨gpte, inspected, hsearch, henters⟩
    exact (entersKernel_of_searchesEnd hl hm hsearch).2 henters

/-- The kernel of one byte is entered from its disk, so that all of this is in order there. -/
theorem boot_enters_iff_kernelDisk :
    ∃ gpte inspected, SearchesEnd kernelDisk (fun _ => 0) readyMemory 0x6E000 0x9000
        [⟨0x100000, 0x40000000, 1, 0⟩] gpte inspected ∧
      ∃ r, firstFit [⟨0x100000, 0x40000000, 1, 0⟩] 268435456 = some r ∧
        CanEnter kernelDisk (setupPhysicalMap (.boot readyMemory) 0x40000000)
          (numGigs 0x40000000 * 2 ^ 30) gpte r.baseAddress.toNat := by
  have hk := kernelReady_oneKernel
  rw [← kernelFile_kernelDisk] at hk
  obtain ⟨d', hl', hdisk, _, hmain⟩ := cbootMain_of_loadKernel
    (live_driveOf kernelDisk) memoryReady_readyMemory partitionReady_kernelDisk
    archiveReady_kernelDisk (fun _ => 0) (show 0x6E000 + 4096 ≤ 2 ^ 21 by decide)
  have hentered : EntersKernel (driveOf kernelDisk) (.boot readyMemory) (fun _ => 0) 0x6E000 0x9000
      0x8000 := by
    have ha := archiveReady_kernelDisk
    rw [show kernelDisk = d'.disk from hdisk.symm] at ha hk
    obtain ⟨d'', log, k, hreturns, hlog, _⟩ := loadKernel_enters hl' memoryReady_readyMemory ha hk
    exact ⟨d'', _, some k, hmain _ _ _ hreturns, k.entryPoint,
      List.mem_cons_of_mem _ (List.mem_cons_of_mem _ hlog)⟩
  exact (boot_enters_iff (live_driveOf _) memoryReady_readyMemory.layout _ _ _).1 hentered

end Cboot
